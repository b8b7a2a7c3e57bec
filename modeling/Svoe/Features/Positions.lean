import Svoe.Features.FeatureConfigs

/-!
# The positions of params

`_construct_feature_tree` numbers the nodes of a tree with two counters, one for features and one
for data sources, and every node reads its params at its number.  The counter of the features is
decremented when a feature is done, so a feature has the position of its depth, and the features
among the dependencies of one feature share theirs.  A list of params is asked for at most the
position behind its last entry, which `_parse_params` lets through.

* `Traced` : a construction with the calls of `_parse_params` on the way.
* `tracedFeatureTree_snd` : the trace changes nothing.
* `Outcome.tracedFeatureTree` : what is read of a tree, and how the construction ends.
* `ownEntries_iff` : when every node has an entry of its own.
-/

namespace Svoe

variable {α β δ π : Type}

/-- A call of `_parse_params`. -/
structure ParamsRead where
  isDataSource : Bool
  position : ℕ
  deriving DecidableEq

/-! ### Traces -/

/-- A construction: the calls of `_parse_params` it made, and what it returned. -/
abbrev Traced (α : Type) := List ParamsRead × Except ConstructError α

namespace Traced

/-- One construction after the other. -/
def bind (x : Traced α) (f : α → Traced β) : Traced β :=
  match x.2 with
  | .error e => (x.1, .error e)
  | .ok a => (x.1 ++ (f a).1, (f a).2)

@[simp] theorem snd_bind (x : Traced α) (f : α → Traced β) :
    (x.bind f).2 = x.2 >>= fun a => (f a).2 := by
  obtain ⟨reads, e | a⟩ := x <;> rfl

@[simp] theorem bind_error (reads : List ParamsRead) (e : ConstructError) (f : α → Traced β) :
    bind (reads, .error e) f = (reads, .error e) := rfl

@[simp] theorem bind_ok (reads : List ParamsRead) (a : α) (f : α → Traced β) :
    bind (reads, .ok a) f = (reads ++ (f a).1, (f a).2) := rfl

end Traced

namespace Definitions

variable (defs : Definitions δ π)

/-- `constructChildren`, with what it reads. -/
def tracedChildren (construct : δ → Positions → Traced (NamedFeature δ π × Positions)) :
    List δ → Positions → Traced (List (NamedFeature δ π) × Positions)
  | [], position => ([], .ok ([], position))
  | depFd :: deps, position =>
    let position :=
      if defs.isDataSource depFd then position
      else { position with feature := position.feature + 1 }
    (construct depFd position).bind fun r =>
      (tracedChildren construct deps r.2).bind fun rs => ([], .ok (r.1 :: rs.1, rs.2))

/-- `constructFeatureTree`, with what it reads. -/
def tracedFeatureTree (dataSourceParams featureParams : NodeParams π)
    (existingFeatures : List (NamedFeature δ π)) :
    ℕ → Option String → δ → Positions → Traced (NamedFeature δ π × Positions)
  | 0, _, _, _ => ([], .error .recursion)
  | n + 1, name, rootDef, position =>
    if defs.isDataSource rootDef then
      Traced.bind ([⟨true, position.dataSource⟩],
        defs.parseParams dataSourceParams position.dataSource) fun params =>
      let f : NamedFeature δ π := .node ⟨rootDef, params, name, false⟩ []
      ([], .ok (defs.reuse existingFeatures f,
        { position with dataSource := position.dataSource + 1 }))
    else
      Traced.bind ([⟨false, position.feature⟩],
        defs.parseParams featureParams position.feature) fun params =>
      Traced.bind ([], defs.depUpstreamDefinitions rootDef (defs.depSchema params)) fun deps =>
      (defs.tracedChildren
        (tracedFeatureTree dataSourceParams featureParams existingFeatures n none) deps
          position).bind fun r =>
      let f : NamedFeature δ π := .node ⟨rootDef, params, name, false⟩ r.1
      ([], .ok (defs.reuse existingFeatures f, { r.2 with feature := r.2.feature - 1 }))

variable {defs} {dataSourceParams featureParams : NodeParams π}
  {existingFeatures : List (NamedFeature δ π)}

theorem tracedChildren_snd {construct : δ → Positions → Traced (NamedFeature δ π × Positions)}
    {construct' : δ → Positions → Except ConstructError (NamedFeature δ π × Positions)}
    (h : ∀ d p, (construct d p).2 = construct' d p) (deps : List δ) (position : Positions) :
    (defs.tracedChildren construct deps position).2 =
      defs.constructChildren construct' deps position := by
  induction deps generalizing position with
  | nil => rfl
  | cons d deps ih =>
    rw [tracedChildren, constructChildren, Traced.snd_bind, h]
    congr 1
    funext r
    rw [Traced.snd_bind, ih]

/-- **The trace changes nothing.** -/
theorem tracedFeatureTree_snd (n : ℕ) (name : Option String) (rootDef : δ)
    (position : Positions) :
    (defs.tracedFeatureTree dataSourceParams featureParams existingFeatures n name rootDef
      position).2 =
    defs.constructFeatureTree dataSourceParams featureParams existingFeatures n name rootDef
      position := by
  induction n generalizing name rootDef position with
  | zero => rfl
  | succ n ih =>
    rw [tracedFeatureTree, constructFeatureTree]
    split_ifs
    · rw [Traced.snd_bind]
    · rw [Traced.snd_bind]
      congr 1
      funext params
      rw [Traced.snd_bind]
      congr 1
      funext deps
      rw [Traced.snd_bind, tracedChildren_snd fun d p => ih none d p]

/-! ### What is read of a tree -/

section Reads

variable (defs)

/-- The number of data sources of a tree. -/
def sourceCount (t : RoseTree δ) : ℕ := t.postorder.countP fun s => defs.isDataSource s.value

/-- The number of features of a tree. -/
def featureCount (t : RoseTree δ) : ℕ := t.postorder.countP fun s => !defs.isDataSource s.value

mutual

/-- The positions that the nodes of a tree read: `d` is its depth, `k` the next position of a data
source. -/
def treeReads : RoseTree δ → ℕ → ℕ → List ParamsRead
  | .node rootDef children, d, k =>
    if defs.isDataSource rootDef then [⟨true, k⟩]
    else ⟨false, d⟩ :: treeReadsAll children (d + 1) k

/-- The positions that the nodes of several trees read, one tree after the other. -/
def treeReadsAll : List (RoseTree δ) → ℕ → ℕ → List ParamsRead
  | [], _, _ => []
  | t :: ts, d, k => treeReads t d k ++ treeReadsAll ts d (k + defs.sourceCount t)

end

end Reads

variable (defs featureParams) in
/-- The tree that the definitions give at a depth, where calls can be nested at most `n` deep.  The
dependencies of a feature are those for the params that it reads at its depth. -/
inductive Unfolds : ℕ → ℕ → RoseTree δ → Prop where
  | dataSource {n d : ℕ} {rootDef : δ} (h : defs.isDataSource rootDef = true) :
    Unfolds (n + 1) d (.node rootDef [])
  | feature {n d : ℕ} {rootDef : δ} {children : List (RoseTree δ)}
    (h : defs.isDataSource rootDef = false)
    (hdeps : ∀ params, defs.parseParams featureParams d = .ok params →
      defs.depUpstreamDefinitions rootDef (defs.depSchema params) =
        .ok (children.map RoseTree.value))
    (hchildren : ∀ c ∈ children, Unfolds n (d + 1) c) :
    Unfolds (n + 1) d (.node rootDef children)

variable (dataSourceParams featureParams) in
/-- The params that are asked. -/
def paramsOf (v : ParamsRead) : NodeParams π :=
  if v.isDataSource then dataSourceParams else featureParams

/-- A list has an entry for the position. -/
def HasEntry (params : NodeParams π) (position : ℕ) : Prop :=
  ∀ l, params = .list l → position < l.length

/-- The params are none, a dict or a list. -/
def Positional (params : NodeParams π) : Prop := ∀ type, params ≠ .other type

variable (defs) in
/-- A list that has entries for all positions before: it is `IndexError` that comes next. -/
theorem parseParams_cases {params : NodeParams π} {position : ℕ} (hpositional : Positional params)
    (h : ∀ p < position, HasEntry params p) :
    (HasEntry params position ∧ ∃ a, defs.parseParams params position = .ok a) ∨
      (¬ HasEntry params position ∧ defs.parseParams params position = .error .index) := by
  cases params with
  | none => exact .inl ⟨nofun, _, rfl⟩
  | dict d => exact .inl ⟨nofun, _, rfl⟩
  | other type => exact absurd rfl (hpositional type)
  | list l =>
    have hle : position ≤ l.length := by
      rcases Nat.eq_zero_or_pos position with rfl | hpos
      · exact Nat.zero_le _
      · have hlt := h (position - 1) (by omega) l rfl
        omega
    unfold parseParams
    dsimp only
    rw [if_pos hle]
    by_cases hlt : position < l.length
    · rw [List.getElem?_eq_getElem hlt]
      refine .inl ⟨fun l' hl' => ?_, _, rfl⟩
      obtain rfl := NodeParams.list.inj hl'
      exact hlt
    · rw [List.getElem?_eq_none (Nat.le_of_not_lt hlt)]
      exact .inr ⟨fun hentry => hlt (hentry l rfl), rfl⟩

/-! ### The positions of data sources -/

/-- The positions that data sources read, or those that features read. -/
def positionsOf (isDataSource : Bool) (reads : List ParamsRead) : List ℕ :=
  (reads.filter fun v => v.isDataSource = isDataSource).map ParamsRead.position

@[simp] theorem positionsOf_append (b : Bool) (reads reads' : List ParamsRead) :
    positionsOf b (reads ++ reads') = positionsOf b reads ++ positionsOf b reads' := by
  simp [positionsOf]

theorem mem_positionsOf_iff {b : Bool} {reads : List ParamsRead} {p : ℕ} :
    p ∈ positionsOf b reads ↔ ⟨b, p⟩ ∈ reads := by
  simp only [positionsOf, List.mem_map, List.mem_filter, decide_eq_true_eq]
  constructor
  · rintro ⟨v, ⟨hv, rfl⟩, rfl⟩
    exact hv
  · exact fun h => ⟨_, ⟨h, rfl⟩, rfl⟩

variable {n d k : ℕ} {t : RoseTree δ} {ts : List (RoseTree δ)} {rootDef : δ}

theorem sourceCount_node : defs.sourceCount (.node rootDef ts) =
    (ts.map defs.sourceCount).sum + if defs.isDataSource rootDef then 1 else 0 := by
  rw [sourceCount, RoseTree.postorder_eq, RoseTree.postorderAll_eq, List.countP_append,
    List.countP_flatMap, List.countP_singleton]
  rfl

theorem featureCount_node : defs.featureCount (.node rootDef ts) =
    (ts.map defs.featureCount).sum + if defs.isDataSource rootDef then 0 else 1 := by
  rw [featureCount, RoseTree.postorder_eq, RoseTree.postorderAll_eq, List.countP_append,
    List.countP_flatMap, List.countP_singleton]
  congr 1
  show (if !defs.isDataSource rootDef then 1 else 0) = _
  cases defs.isDataSource rootDef <;> rfl

/-- **Data sources** read one position after the other. -/
theorem positionsOf_source_treeReads (h : Unfolds defs featureParams n d t) (k : ℕ) :
    positionsOf true (defs.treeReads t d k) = List.range' k (defs.sourceCount t) := by
  induction h generalizing k with
  | dataSource h =>
    rw [treeReads, if_pos h, sourceCount_node, if_pos h]
    rfl
  | @feature n d rootDef children h hdeps hchildren ih =>
    have hall : ∀ ts ⊆ children, ∀ k, positionsOf true (defs.treeReadsAll ts (d + 1) k) =
        List.range' k (ts.map defs.sourceCount).sum := by
      intro ts hts
      induction ts with
      | nil => exact fun k => rfl
      | cons c ts ihts =>
        intro k
        rw [List.cons_subset] at hts
        rw [treeReadsAll, positionsOf_append, ih c hts.1, ihts hts.2, List.map_cons, List.sum_cons,
          List.range'_append_1]
    rw [treeReads, if_neg (by simp [h]), sourceCount_node, if_neg (by simp [h])]
    exact hall children (List.Subset.refl children) k

variable (dataSourceParams featureParams) in
/-- How a construction ends that is to read at these positions, and to go on at `position`: it has
read them all, or raises `IndexError` at one that a list has no entry for. -/
inductive Outcome (reads : List ParamsRead) (position : Positions) :
    Traced (α × Positions) → Prop where
  | ok (h : ∀ v ∈ reads, HasEntry (paramsOf dataSourceParams featureParams v) v.position) (a : α) :
    Outcome reads position (reads, .ok (a, position))
  | index {log : List ParamsRead} {v : ParamsRead} (hv : v ∈ log) (hreads : v ∈ reads)
    (h : ¬ HasEntry (paramsOf dataSourceParams featureParams v) v.position) :
    Outcome reads position (log, .error .index)

/-- One construction after the other. -/
theorem Outcome.bind {x : Traced (α × Positions)} {f : α × Positions → Traced (β × Positions)}
    {reads reads' : List ParamsRead} {position position' : Positions}
    (hx : Outcome dataSourceParams featureParams reads position x)
    (hf : (∀ v ∈ reads, HasEntry (paramsOf dataSourceParams featureParams v) v.position) → ∀ a,
      Outcome dataSourceParams featureParams reads' position' (f (a, position))) :
    Outcome dataSourceParams featureParams (reads ++ reads') position' (x.bind f) := by
  cases hx with
  | index hv hreads h => exact .index hv (List.mem_append_left _ hreads) h
  | ok h a =>
    have hy := hf h a
    rw [Traced.bind_ok]
    generalize f (a, position) = y at hy
    cases hy with
    | ok h' b => exact .ok (List.forall_mem_append.2 ⟨h, h'⟩) b
    | index hv hreads h' =>
      exact .index (List.mem_append_right _ hv) (List.mem_append_right _ hreads) h'

/-- A construction that goes on with what it has, and reads nothing more. -/
theorem Outcome.map {x : Traced (α × Positions)} {reads : List ParamsRead}
    {position position' : Positions} (hx : Outcome dataSourceParams featureParams reads position x)
    (f : α × Positions → β × Positions) (hf : ∀ a, (f (a, position)).2 = position') :
    Outcome dataSourceParams featureParams reads position' (x.bind fun r => ([], .ok (f r))) := by
  rw [← List.append_nil reads]
  refine hx.bind fun _ a => ?_
  rw [← hf a]
  exact .ok (List.forall_mem_nil _) _

/-- The read of one node. -/
theorem Outcome.read {b : Bool} {p : ℕ} {position : Positions} {f : π → Traced (α × Positions)}
    {reads : List ParamsRead}
    (hpositional : Positional (paramsOf dataSourceParams featureParams ⟨b, p⟩))
    (hbefore : ∀ p' < p, HasEntry (paramsOf dataSourceParams featureParams ⟨b, p⟩) p')
    (hf : HasEntry (paramsOf dataSourceParams featureParams ⟨b, p⟩) p → ∀ params,
      defs.parseParams (paramsOf dataSourceParams featureParams ⟨b, p⟩) p = .ok params →
        Outcome dataSourceParams featureParams reads position (f params)) :
    Outcome dataSourceParams featureParams (⟨b, p⟩ :: reads) position
      (Traced.bind ([⟨b, p⟩], defs.parseParams (paramsOf dataSourceParams featureParams ⟨b, p⟩) p)
        f) := by
  rcases parseParams_cases defs hpositional hbefore with ⟨hentry, a, ha⟩ | ⟨hno, hindex⟩
  · have hy := hf hentry a ha
    rw [ha, Traced.bind_ok]
    generalize f a = y at hy
    cases hy with
    | ok h' b => exact .ok (List.forall_mem_cons.2 ⟨hentry, h'⟩) b
    | index hv hreads h' =>
      exact .index (List.mem_append_right _ hv) (List.mem_cons_of_mem _ hreads) h'
  · rw [hindex, Traced.bind_error]
    exact .index (List.mem_singleton_self _) List.mem_cons_self hno

/-- The dependencies of a feature at depth `d`: each takes the next positions of data sources, and
leaves the counter of features as it was. -/
theorem Outcome.tracedChildren
    (construct : δ → Positions → Traced (NamedFeature δ π × Positions))
    (hunfolds : ∀ c ∈ ts, Unfolds defs featureParams n (d + 1) c)
    (hconstruct : ∀ c ∈ ts, ∀ position : Positions,
      (defs.isDataSource c.value = false → position.feature = d + 1) →
      (∀ p < position.dataSource, HasEntry dataSourceParams p) →
      Outcome dataSourceParams featureParams (defs.treeReads c (d + 1) position.dataSource)
        ⟨if defs.isDataSource c.value then position.feature else d,
          position.dataSource + defs.sourceCount c⟩ (construct c.value position))
    (hbefore : ∀ p < k, HasEntry dataSourceParams p) :
    Outcome dataSourceParams featureParams (defs.treeReadsAll ts (d + 1) k)
      ⟨d, k + (ts.map defs.sourceCount).sum⟩
      (defs.tracedChildren construct (ts.map RoseTree.value) ⟨d, k⟩) := by
  induction ts generalizing k with
  | nil => exact .ok (by simp [treeReadsAll]) []
  | cons c ts ih =>
    rw [List.forall_mem_cons] at hunfolds hconstruct
    obtain ⟨hc, hts⟩ := hunfolds
    obtain ⟨hconstruct, hrest⟩ := hconstruct
    set position : Positions := if defs.isDataSource c.value then ⟨d, k⟩ else ⟨d + 1, k⟩
      with hposition
    have hsource : position.dataSource = k := by
      rw [hposition]
      split_ifs <;> rfl
    have hfeature : (if defs.isDataSource c.value then position.feature else d) = d := by
      rw [hposition]
      split_ifs <;> rfl
    have hfirst := hconstruct position (fun h => by rw [hposition, if_neg (by simp [h])])
      (fun p hp => hbefore p (hsource ▸ hp))
    rw [hfeature, hsource] at hfirst
    rw [List.map_cons, treeReadsAll]
    show Outcome _ _ _ _ (Traced.bind (construct c.value position) _)
    refine hfirst.bind fun hall f => ?_
    have hnext : ∀ p < k + defs.sourceCount c, HasEntry dataSourceParams p := by
      intro p hp
      rcases Nat.lt_or_ge p k with hlt | hge
      · exact hbefore p hlt
      · have hmem : p ∈ positionsOf true (defs.treeReads c (d + 1) k) := by
          rw [positionsOf_source_treeReads hc, List.mem_range'_1]
          exact ⟨hge, hp⟩
        exact hall _ (mem_positionsOf_iff.1 hmem)
    rw [List.sum_cons, ← Nat.add_assoc]
    exact (ih hts hrest hnext).map (fun rs => (f :: rs.1, rs.2)) fun _ => rfl

variable (existingFeatures) in
/-- **What is read of a tree**: every feature reads at its depth, and every data source at the next
position, until a list has no entry. -/
theorem Outcome.tracedFeatureTree (h : Unfolds defs featureParams n d t)
    (hdataSource : Positional dataSourceParams) (hfeature : Positional featureParams)
    (name : Option String) (position : Positions)
    (hposition : defs.isDataSource t.value = false → position.feature = d)
    (hbefore : ∀ p < d, HasEntry featureParams p)
    (hsources : ∀ p < position.dataSource, HasEntry dataSourceParams p) :
    Outcome dataSourceParams featureParams (defs.treeReads t d position.dataSource)
      ⟨if defs.isDataSource t.value then position.feature else d - 1,
        position.dataSource + defs.sourceCount t⟩
      (defs.tracedFeatureTree dataSourceParams featureParams existingFeatures n name t.value
        position) := by
  induction h generalizing name position with
  | @dataSource n d rootDef h =>
    rw [Definitions.tracedFeatureTree, treeReads, sourceCount_node]
    simp only [RoseTree.value, h, if_true]
    refine Outcome.read (b := true) hdataSource hsources fun _ params _ => ?_
    exact .ok (by simp) _
  | @feature n d rootDef children h hdeps hchildren ih =>
    obtain ⟨pf, ps⟩ := position
    obtain rfl := hposition h
    rw [Definitions.tracedFeatureTree, treeReads, sourceCount_node]
    simp only [RoseTree.value, h, Bool.false_eq_true, if_false, Nat.add_zero]
    refine Outcome.read (b := false) hfeature hbefore fun hentry params hparams => ?_
    rw [hdeps params hparams, Traced.bind_ok, List.nil_append]
    have hbefore' : ∀ p < pf + 1, HasEntry featureParams p := fun p hp => by
      rcases Nat.lt_succ_iff_lt_or_eq.1 hp with hlt | rfl
      · exact hbefore p hlt
      · exact hentry
    have hall := Outcome.tracedChildren (defs.tracedFeatureTree dataSourceParams featureParams
      existingFeatures n none) hchildren (fun c hc position hposition hsources =>
        ih c hc none position hposition hbefore' hsources) hsources
    exact hall.map
      (fun r => (defs.reuse existingFeatures (.node ⟨rootDef, params, name, false⟩ r.1),
        { r.2 with feature := r.2.feature - 1 })) fun _ => rfl

/-! ### The positions of features -/

variable (defs) in
/-- No feature of the tree has more than one dependency that is a feature. -/
def OneFeatureDep (t : RoseTree δ) : Prop :=
  ∀ s ∈ t.postorder, (s.children.countP fun c => !defs.isDataSource c.value) ≤ 1

theorem OneFeatureDep.of_mem_children (h : OneFeatureDep defs t) {c : RoseTree δ}
    (hc : c ∈ t.children) : OneFeatureDep defs c := fun s hs =>
  h s (RoseTree.mem_postorder_trans hs
    (RoseTree.mem_postorder_of_mem_children (RoseTree.mem_postorder_self t) hc))

theorem positionsOf_feature_of_isDataSource (h : defs.isDataSource t.value = true) (d k : ℕ) :
    positionsOf false (defs.treeReads t d k) = [] := by
  obtain ⟨rootDef, children⟩ := t
  rw [treeReads, if_pos (show defs.isDataSource rootDef = true from h)]
  rfl

/-- Data sources have no dependencies. -/
theorem featureCount_of_isDataSource (h : Unfolds defs featureParams n d t)
    (hsource : defs.isDataSource t.value = true) : defs.featureCount t = 0 := by
  cases h with
  | dataSource h => rw [featureCount_node, if_pos h]; rfl
  | feature h => exact absurd hsource (by simp [RoseTree.value, h])

/-- The only dependency that is a feature reads what the dependencies read. -/
theorem positionsOf_feature_treeReadsAll
    (hunfolds : ∀ c ∈ ts, Unfolds defs featureParams n d c)
    (hcount : (ts.countP fun c => !defs.isDataSource c.value) ≤ 1)
    (hchain : ∀ c ∈ ts, ∀ k,
      positionsOf false (defs.treeReads c d k) = List.range' d (defs.featureCount c)) (k : ℕ) :
    positionsOf false (defs.treeReadsAll ts d k) =
      List.range' d (ts.map defs.featureCount).sum := by
  induction ts generalizing k with
  | nil => rfl
  | cons c ts ih =>
    rw [List.forall_mem_cons] at hunfolds hchain
    rw [List.countP_cons] at hcount
    rw [treeReadsAll, positionsOf_append, List.map_cons, List.sum_cons, hchain.1,
      ih hunfolds.2 (by omega) hchain.2]
    cases hc : defs.isDataSource c.value with
    | true => rw [featureCount_of_isDataSource hunfolds.1 hc, Nat.zero_add]; rfl
    | false =>
      -- the other dependencies are data sources
      have hzero : (ts.map defs.featureCount).sum = 0 := by
        rw [hc] at hcount
        have hnone : (ts.countP fun c => !defs.isDataSource c.value) = 0 := by
          simpa using hcount
        refine List.sum_eq_zero_iff_forall_eq_nat.2 fun m hm => ?_
        obtain ⟨b, hb, rfl⟩ := List.mem_map.1 hm
        exact featureCount_of_isDataSource (hunfolds.2 b hb)
          (by simpa using List.countP_eq_zero.1 hnone b hb)
      rw [hzero, Nat.add_zero]
      exact List.append_nil _

/-- **On a chain of features** they read one position after the other. -/
theorem positionsOf_feature_treeReads (h : Unfolds defs featureParams n d t)
    (hone : OneFeatureDep defs t) (k : ℕ) :
    positionsOf false (defs.treeReads t d k) = List.range' d (defs.featureCount t) := by
  induction h generalizing k with
  | dataSource h =>
    rw [featureCount_node, if_pos h]
    exact positionsOf_feature_of_isDataSource h _ k
  | @feature n d rootDef children h hdeps hchildren ih =>
    have hself := hone _ (RoseTree.mem_postorder_self _)
    have hall := positionsOf_feature_treeReadsAll hchildren hself
      (fun c hc k => ih c hc (hone.of_mem_children hc) k) k
    rw [treeReads, if_neg (by simp [h]), featureCount_node, if_neg (by simp [h]),
      List.range'_succ]
    exact congrArg (List.cons d) hall

/-- Features that are dependencies of one feature read the same position. -/
theorem countP_le_count_treeReadsAll
    (hunfolds : ∀ c ∈ ts, Unfolds defs featureParams n d c) (k : ℕ) :
    (ts.countP fun c => !defs.isDataSource c.value) ≤
      (positionsOf false (defs.treeReadsAll ts d k)).count d := by
  induction ts generalizing k with
  | nil => exact Nat.zero_le _
  | cons c ts ih =>
    rw [List.forall_mem_cons] at hunfolds
    obtain ⟨hc, hts⟩ := hunfolds
    rw [treeReadsAll, positionsOf_append, List.count_append, List.countP_cons, Nat.add_comm]
    refine Nat.add_le_add ?_ (ih hts _)
    cases hc with
    | dataSource h => simp [RoseTree.value, h]
    | @feature _ _ rootDef children h =>
      rw [treeReads, if_neg (show ¬ defs.isDataSource rootDef = true by simp [h])]
      have hmem : d ∈ positionsOf false (⟨false, d⟩ :: defs.treeReadsAll children (d + 1) k) :=
        mem_positionsOf_iff.2 List.mem_cons_self
      have hpos := List.count_pos_iff.2 hmem
      split_ifs <;> omega

variable (defs) in
theorem sublist_treeReadsAll {c : RoseTree δ} (hc : c ∈ ts) (d k : ℕ) :
    ∃ k', (defs.treeReads c d k').Sublist (defs.treeReadsAll ts d k) := by
  induction ts generalizing k with
  | nil => cases hc
  | cons c' ts ih =>
    rw [treeReadsAll]
    rcases List.mem_cons.1 hc with rfl | hc
    · exact ⟨k, List.sublist_append_left _ _⟩
    · obtain ⟨k', hk'⟩ := ih hc (k + defs.sourceCount c')
      exact ⟨k', hk'.trans (List.sublist_append_right _ _)⟩

/-- **Different positions** are those of a chain only. -/
theorem oneFeatureDep_of_nodup (h : Unfolds defs featureParams n d t) {k : ℕ}
    (hnodup : (positionsOf false (defs.treeReads t d k)).Nodup) : OneFeatureDep defs t := by
  induction h generalizing k with
  | dataSource h =>
    intro s hs
    obtain rfl := List.mem_singleton.1 (show s ∈ [_] from hs)
    exact Nat.zero_le 1
  | @feature n d rootDef children h hdeps hchildren ih =>
    rw [treeReads, if_neg (by simp [h])] at hnodup
    have hall : (positionsOf false (defs.treeReadsAll children (d + 1) k)).Nodup :=
      (List.nodup_cons.1 hnodup).2
    intro s hs
    rw [RoseTree.postorder_eq, RoseTree.postorderAll_eq] at hs
    rcases List.mem_append.1 hs with hs | hs
    · obtain ⟨c, hc, hs⟩ := List.mem_flatMap.1 hs
      obtain ⟨k', hk'⟩ := sublist_treeReadsAll defs hc (d + 1) k
      exact ih c hc (hall.sublist ((hk'.filter _).map _)) s hs
    · obtain rfl := List.mem_singleton.1 hs
      exact (countP_le_count_treeReadsAll hchildren k).trans (List.nodup_iff_count_le_one.1 hall _)

/-! ### Entries -/

theorem forall_hasEntry_range'_iff {params : NodeParams π} {count : ℕ} :
    (∀ p ∈ List.range' 0 count, HasEntry params p) ↔ ∀ l, params = .list l → count ≤ l.length := by
  constructor
  · rintro h l rfl
    by_contra hlt
    have hentry := h l.length (List.mem_range'_1.2 ⟨Nat.zero_le _, by omega⟩) l rfl
    omega
  · intro h p hp l hl
    have hle := h l hl
    have hlt := (List.mem_range'_1.1 hp).2
    omega

/-- On a chain all reads have entries if and only if every list has one for every node of its
kind. -/
theorem forall_hasEntry_iff (h : Unfolds defs featureParams n 0 t)
    (hone : OneFeatureDep defs t) :
    (∀ v ∈ defs.treeReads t 0 0,
      HasEntry (paramsOf dataSourceParams featureParams v) v.position) ↔
      (∀ l, featureParams = .list l → defs.featureCount t ≤ l.length) ∧
        ∀ l, dataSourceParams = .list l → defs.sourceCount t ≤ l.length := by
  rw [← forall_hasEntry_range'_iff, ← forall_hasEntry_range'_iff,
    ← positionsOf_feature_treeReads h hone 0, ← positionsOf_source_treeReads h 0]
  simp only [mem_positionsOf_iff]
  constructor
  · exact fun hall => ⟨fun p hp => hall ⟨false, p⟩ hp, fun p hp => hall ⟨true, p⟩ hp⟩
  · rintro ⟨hfeature, hsource⟩ ⟨_ | _, p⟩ hv
    · exact hfeature p hv
    · exact hsource p hv

variable (defs) in
/-- The calls of `_parse_params` when a feature is constructed. -/
def paramsReads (dataSourceParams featureParams : NodeParams π)
    (existingFeatures : List (NamedFeature δ π)) (limit : ℕ) (name : Option String)
    (rootDef : δ) : List ParamsRead :=
  (defs.tracedFeatureTree dataSourceParams featureParams existingFeatures limit name rootDef
    ⟨0, 0⟩).1

/-- Every node has its own entry: no two features and no two data sources read the same position,
and a list without an entry for a position raises the `ValueError` that says so. -/
structure OwnEntries (defs : Definitions δ π) (dataSourceParams featureParams : NodeParams π)
    (existingFeatures : List (NamedFeature δ π)) (limit : ℕ) (name : Option String)
    (rootDef : δ) : Prop where
  features : (positionsOf false (defs.paramsReads dataSourceParams featureParams existingFeatures
    limit name rootDef)).Nodup
  dataSources : (positionsOf true (defs.paramsReads dataSourceParams featureParams
    existingFeatures limit name rootDef)).Nodup
  tooShort : ∀ v ∈ defs.paramsReads dataSourceParams featureParams existingFeatures limit name
    rootDef, ∀ l, paramsOf dataSourceParams featureParams v = .list l → l.length ≤ v.position →
      defs.constructFeatureTree dataSourceParams featureParams existingFeatures limit name rootDef
        ⟨0, 0⟩ =
          .error (.value s!"Position {v.position} is larger then params len: {l.length}")

/-- **Every node has its own entry** if and only if the features of the tree are a chain and every
list has an entry for every node of its kind. -/
theorem ownEntries_iff {limit : ℕ} {name : Option String}
    (h : Unfolds defs featureParams limit 0 t) (hdataSource : Positional dataSourceParams)
    (hfeature : Positional featureParams) :
    OwnEntries defs dataSourceParams featureParams existingFeatures limit name t.value ↔
      OneFeatureDep defs t ∧
        (∀ l, featureParams = .list l → defs.featureCount t ≤ l.length) ∧
          ∀ l, dataSourceParams = .list l → defs.sourceCount t ≤ l.length := by
  have hend := Outcome.tracedFeatureTree existingFeatures h hdataSource hfeature name ⟨0, 0⟩
    (fun _ => rfl) nofun nofun
  have hresult : (defs.tracedFeatureTree dataSourceParams featureParams existingFeatures limit name
      t.value ⟨0, 0⟩).2 = defs.constructFeatureTree dataSourceParams featureParams existingFeatures
        limit name t.value ⟨0, 0⟩ := tracedFeatureTree_snd limit name t.value ⟨0, 0⟩
  have hreads : (defs.tracedFeatureTree dataSourceParams featureParams existingFeatures limit name
      t.value ⟨0, 0⟩).1 = defs.paramsReads dataSourceParams featureParams existingFeatures limit
        name t.value := rfl
  generalize defs.tracedFeatureTree dataSourceParams featureParams existingFeatures limit name
    t.value ⟨0, 0⟩ = x at hend hresult hreads
  constructor
  · rintro ⟨hfeatures, -, hshort⟩
    rw [← hreads] at hfeatures hshort
    rw [← hresult] at hshort
    cases hend with
    | ok hall f =>
      have hone := oneFeatureDep_of_nodup h hfeatures
      exact ⟨hone, (forall_hasEntry_iff h hone).1 hall⟩
    | index hv _ hno =>
      unfold HasEntry at hno
      push Not at hno
      obtain ⟨l, hl, hlength⟩ := hno
      cases hshort _ hv l hl hlength
  · rintro ⟨hone, hlengths⟩
    have hall := (forall_hasEntry_iff h hone).2 hlengths
    cases hend with
    | index _ hv hno => exact absurd (hall _ hv) hno
    | ok _ f =>
      refine ⟨?_, ?_, fun v hv l hl hlength => ?_⟩
      · rw [← hreads, positionsOf_feature_treeReads h hone]
        exact List.nodup_range'
      · rw [← hreads, positionsOf_source_treeReads h]
        exact List.nodup_range'
      · rw [← hreads] at hv
        have hlt := hall v hv l hl
        omega

/-! ### Two trees -/

/-- The ticker's definitions with a feature of one feature, and one of two. -/
def priceDefinitions (hash : List (HashValue ℕ) → String) : Definitions String ℕ :=
  { tickerDefinitions hash with
    depUpstreamDefinitions := fun rootDef _ => .ok
      (if rootDef = "DiffFD" then ["MidPriceFD"]
      else if rootDef = "SumFD" then ["MidPriceFD", "SpreadFD"]
      else if rootDef = "TickerData" then []
      else ["TickerData"]) }

/-- A feature of the ticker. -/
def tickerTree (rootDef : String) : RoseTree String := .node rootDef [.node "TickerData" []]

/-- A feature of these features of the ticker. -/
def priceTree (rootDef : String) (deps : List String) : RoseTree String :=
  .node rootDef (deps.map tickerTree)

theorem unfolds_priceTree {hash : List (HashValue ℕ) → String} {featureParams : NodeParams ℕ}
    {rootDef : String} {deps : List String}
    (hroot : ∀ schema, (priceDefinitions hash).depUpstreamDefinitions rootDef schema = .ok deps)
    (hsource : rootDef ≠ "TickerData") (hdeps : ∀ dep ∈ deps, dep ≠ "TickerData" ∧ ∀ schema,
      (priceDefinitions hash).depUpstreamDefinitions dep schema = .ok ["TickerData"]) :
    Unfolds (priceDefinitions hash) featureParams 1000 0 (priceTree rootDef deps) := by
  refine .feature (decide_eq_false hsource) (fun params _ => ?_) fun c hc => ?_
  · rw [hroot, List.map_map]
    exact congrArg Except.ok (List.map_id deps).symm
  · obtain ⟨dep, hdep, rfl⟩ := List.mem_map.1 hc
    obtain ⟨hne, hdep⟩ := hdeps dep hdep
    refine .feature (decide_eq_false hne) (fun params _ => hdep _) fun c hc => ?_
    obtain rfl := List.mem_singleton.1 hc
    exact .dataSource (decide_eq_true (p := "TickerData" = "TickerData") rfl)

/-- A chain with an entry for every node. -/
theorem ownEntries_priceTree : OwnEntries (priceDefinitions textHash) (.list [0]) (.list [1, 2]) []
    1000 none "DiffFD" := by
  have hunfolds : Unfolds (priceDefinitions textHash) (.list [1, 2]) 1000 0
      (priceTree "DiffFD" ["MidPriceFD"]) :=
    unfolds_priceTree (fun _ => rfl) (by decide) (by
      simp only [List.mem_singleton, forall_eq]
      exact ⟨by decide, fun _ => rfl⟩)
  refine (ownEntries_iff (t := priceTree "DiffFD" ["MidPriceFD"]) hunfolds
    (fun _ h => by cases h) (fun _ h => by cases h)).2 ⟨?_, ?_, ?_⟩
  · unfold OneFeatureDep
    decide
  · rintro l hl
    obtain rfl := NodeParams.list.inj hl
    decide
  · rintro l hl
    obtain rfl := NodeParams.list.inj hl
    decide

/-- The two dependencies of a feature read the same entry, and a list that is one entry short raises
`IndexError`. -/
theorem not_ownEntries_twoDependencies :
    Unfolds (priceDefinitions textHash) (.list [1, 2, 3]) 1000 0
      (priceTree "SumFD" ["MidPriceFD", "SpreadFD"]) ∧
    ¬ OwnEntries (priceDefinitions textHash) (.list [0, 0]) (.list [1, 2, 3]) [] 1000 none
      "SumFD" ∧
    ((priceDefinitions textHash).constructFeatureTree (.list [0]) (.list [1]) [] 1000 none "DiffFD"
      ⟨0, 0⟩).map (fun _ => ()) = .error .index := by
  refine ⟨unfolds_priceTree (fun _ => rfl) (by decide) ?_, ?_, by decide +kernel⟩
  · simp only [List.mem_cons, List.not_mem_nil, or_false]
    rintro dep (rfl | rfl)
    · exact ⟨by decide, fun _ => rfl⟩
    · exact ⟨by decide, fun _ => rfl⟩
  · intro hown
    have hpositions : positionsOf false ((priceDefinitions textHash).paramsReads (.list [0, 0])
        (.list [1, 2, 3]) [] 1000 none "SumFD") = [0, 1, 1] := by
      decide +kernel
    have hnodup := hown.features
    rw [hpositions] at hnodup
    exact absurd hnodup (by decide)

end Definitions

end Svoe
