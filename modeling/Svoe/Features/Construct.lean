import Svoe.Features.FeatureConfigs

/-!
# A new feature

A feature that is constructed is an existing one with its key, if there is one, and else a new one.

* `Definitions.constructFeature_agree` : the key of a derived feature does not depend on the
  existing features.
* `Definitions.constructed_of_constructFeature` : the named parts of a feature are existing ones,
  but for a new feature itself.
* `Definitions.mem_updateExisting` : what becomes existing with a feature.
-/

namespace Svoe

/-! ### Results that agree -/

/-- Two computations raise the same, or return values that are related. -/
inductive Agree {ε α β : Type} (R : α → β → Prop) : Except ε α → Except ε β → Prop where
  | ok {a : α} {b : β} (h : R a b) : Agree R (.ok a) (.ok b)
  | error (e : ε) : Agree R (.error e) (.error e)

theorem Agree.refl {ε α : Type} {R : α → α → Prop} (hR : ∀ a, R a a) (x : Except ε α) :
    Agree R x x := by
  cases x with
  | ok a => exact .ok (hR a)
  | error e => exact .error e

theorem Agree.bind {ε α β α' β' : Type} {R : α → β → Prop} {S : α' → β' → Prop}
    {x : Except ε α} {y : Except ε β} {f : α → Except ε α'} {g : β → Except ε β'}
    (h : Agree R x y) (hfg : ∀ a b, R a b → Agree S (f a) (g b)) : Agree S (x >>= f) (y >>= g) := by
  cases h with
  | ok h => exact hfg _ _ h
  | error e => exact .error e

theorem Agree.of_ok_left {ε α β : Type} {R : α → β → Prop} {a : α} {y : Except ε β}
    (h : Agree R (.ok a) y) : ∃ b, y = .ok b ∧ R a b := by
  cases h with
  | ok h => exact ⟨_, rfl, h⟩

theorem Agree.of_ok_right {ε α β : Type} {R : α → β → Prop} {x : Except ε α} {b : β}
    (h : Agree R x (.ok b)) : ∃ a, x = .ok a ∧ R a b := by
  cases h with
  | ok h => exact ⟨_, rfl, h⟩

variable {δ π : Type} {defs : Definitions δ π} {existingFeatures children : List (NamedFeature δ π)}
  {f g : NamedFeature δ π} {fields : FeatureFields δ π} {name : Option String} {k : String}

namespace Definitions

/-! ### The keys in a feature -/

variable (defs) in
/-- The keys of a feature and of all its dependencies. -/
def subKeys (f : NamedFeature δ π) : List String := f.postorder.map defs.key

theorem key_node : defs.key (.node fields children) =
    defs.hash (hashInput defs.className fields (children.map defs.key)) :=
  RoseTree.fold_node
    (fun feature depHashes => defs.hash (hashInput defs.className feature depHashes)) fields children

theorem exists_hash (f : NamedFeature δ π) : ∃ values, defs.key f = defs.hash values := by
  obtain ⟨fields, children⟩ := f
  exact ⟨_, key_node⟩

theorem key_mem_subKeys (h : g ∈ f.postorder) : defs.key g ∈ defs.subKeys f :=
  List.mem_map_of_mem h

theorem mem_subKeys_iff :
    k ∈ defs.subKeys f ↔ k = defs.key f ∨ ∃ c ∈ f.children, k ∈ defs.subKeys c := by
  rw [subKeys, RoseTree.postorder_eq, RoseTree.postorderAll_eq, List.map_append, List.map_flatMap,
    List.mem_append, List.mem_flatMap, List.map_singleton, List.mem_singleton, or_comm]
  rfl

/-- The key of a feature determines the keys of its dependencies. -/
theorem mem_subKeys_congr (hinj : Function.Injective defs.hash) (h : defs.key f = defs.key g) :
    k ∈ defs.subKeys f ↔ k ∈ defs.subKeys g := by
  induction f using RoseTree.induction generalizing g with
  | h f ih =>
    obtain ⟨v, cs⟩ := f
    obtain ⟨w, ds⟩ := g
    have hkeys := h
    rw [key_node, key_node] at hkeys
    have hperm := (hashInput_eq_iff.1 (hinj hkeys)).2
    rw [mem_subKeys_iff, mem_subKeys_iff, h]
    refine or_congr_right ⟨?_, ?_⟩
    · rintro ⟨c, hc, hk⟩
      obtain ⟨d, hd, hdc⟩ := List.mem_map.1 (hperm.mem_iff.1 (List.mem_map_of_mem hc))
      exact ⟨d, hd, (ih c hc hdc.symm).1 hk⟩
    · rintro ⟨d, hd, hk⟩
      obtain ⟨c, hc, hcd⟩ := List.mem_map.1 (hperm.mem_iff.2 (List.mem_map_of_mem hd))
      exact ⟨c, hc, (ih c hc hcd).2 hk⟩

/-! ### A new feature -/

theorem key_reuse : defs.key (defs.reuse existingFeatures f) = defs.key f := by
  unfold reuse
  cases h : existingFeatures.find? fun existing => defs.key existing = defs.key f with
  | none => rfl
  | some existing => simpa using List.find?_some h

theorem reuse_cases : defs.reuse existingFeatures f ∈ existingFeatures ∨
    defs.reuse existingFeatures f = f := by
  unfold reuse
  cases h : existingFeatures.find? fun existing => defs.key existing = defs.key f with
  | none => exact .inr rfl
  | some existing => exact .inl (List.mem_of_find?_eq_some h)

variable (defs) in
/-- A feature is an existing one, or a new one with a new key whose named parts are existing
ones. -/
def Constructed (existingFeatures : List (NamedFeature δ π)) (name : Option String)
    (f : NamedFeature δ π) : Prop :=
  f ∈ existingFeatures ∨ defs.key f ∉ existingFeatures.map defs.key ∧ f.value.name = name ∧
    ∀ c ∈ f.children, ∀ g ∈ c.postorder, g.value.name ≠ none →
      ∃ existing ∈ existingFeatures, g ∈ existing.postorder

theorem constructed_reuse (fields : FeatureFields δ π)
    (h : ∀ c ∈ children, ∀ g ∈ c.postorder, g.value.name ≠ none →
      ∃ existing ∈ existingFeatures, g ∈ existing.postorder) :
    defs.Constructed existingFeatures fields.name
      (defs.reuse existingFeatures (.node fields children)) := by
  unfold reuse
  cases hfind : existingFeatures.find? fun existing =>
    defs.key existing = defs.key (.node fields children) with
  | none =>
    refine .inr ⟨fun hmem => ?_, rfl, h⟩
    obtain ⟨existing, hexisting, hkey⟩ := List.mem_map.1 hmem
    exact List.find?_eq_none.1 hfind existing hexisting (decide_eq_true hkey)
  | some existing => exact .inl (List.mem_of_find?_eq_some hfind)

/-- The named parts of an unnamed feature are existing ones. -/
theorem Constructed.of_none (h : defs.Constructed existingFeatures none f) (hg : g ∈ f.postorder)
    (hname : g.value.name ≠ none) : ∃ existing ∈ existingFeatures, g ∈ existing.postorder := by
  rcases h with hmem | ⟨-, hnone, hchildren⟩
  · exact ⟨f, hmem, hg⟩
  · rw [RoseTree.postorder_eq, RoseTree.postorderAll_eq, List.mem_append, List.mem_flatMap,
      List.mem_singleton] at hg
    rcases hg with ⟨c, hc, hg⟩ | rfl
    · exact hchildren c hc g hg hname
    · exact absurd hnone hname

theorem constructed_of_constructChildren
    {construct : δ → Positions → Except ConstructError (NamedFeature δ π × Positions)}
    {deps : List δ} {position : Positions} {r : List (NamedFeature δ π) × Positions}
    (hconstruct : ∀ d p r, construct d p = .ok r → defs.Constructed existingFeatures none r.1)
    (h : defs.constructChildren construct deps position = .ok r) :
    ∀ c ∈ r.1, defs.Constructed existingFeatures none c := by
  induction deps generalizing position r with
  | nil =>
    obtain rfl := Except.ok.inj h
    simp
  | cons d deps ih =>
    obtain ⟨⟨child, p⟩, hchild, h⟩ := bind_eq_ok_iff.1 h
    obtain ⟨⟨children, p'⟩, hchildren, h⟩ := bind_eq_ok_iff.1 h
    obtain rfl := Except.ok.inj h
    rintro c hc
    rcases List.mem_cons.1 hc with rfl | hc
    · exact hconstruct _ _ _ hchild
    · exact ih hchildren c hc

/-- What `_construct_feature_tree` makes. -/
theorem constructed_of_constructFeatureTree {dataSourceParams featureParams : NodeParams π} {n : ℕ}
    {rootDef : δ} {position : Positions} {r : NamedFeature δ π × Positions}
    (h : defs.constructFeatureTree dataSourceParams featureParams existingFeatures n name rootDef
      position = .ok r) : defs.Constructed existingFeatures name r.1 := by
  induction n generalizing name rootDef position r with
  | zero => cases h
  | succ n ih =>
    unfold constructFeatureTree at h
    split_ifs at h
    · obtain ⟨params, -, h⟩ := bind_eq_ok_iff.1 h
      obtain rfl := Except.ok.inj h
      exact constructed_reuse ⟨rootDef, params, name, false⟩ (by simp)
    · obtain ⟨params, -, h⟩ := bind_eq_ok_iff.1 h
      obtain ⟨deps, -, h⟩ := bind_eq_ok_iff.1 h
      obtain ⟨⟨children, p⟩, hchildren, h⟩ := bind_eq_ok_iff.1 h
      obtain rfl := Except.ok.inj h
      have hall := constructed_of_constructChildren (fun d p r hr => ih hr) hchildren
      exact constructed_reuse ⟨rootDef, params, name, false⟩
        fun c hc g hg hname => (hall c hc).of_none hg hname

theorem constructChildren_agree
    {construct construct' : δ → Positions → Except ConstructError (NamedFeature δ π × Positions)}
    (h : ∀ d p, Agree (fun r r' => defs.key r.1 = defs.key r'.1 ∧ r.2 = r'.2) (construct d p)
      (construct' d p)) (deps : List δ) (position : Positions) :
    Agree (fun r r' => r.1.map defs.key = r'.1.map defs.key ∧ r.2 = r'.2)
      (defs.constructChildren construct deps position)
      (defs.constructChildren construct' deps position) := by
  induction deps generalizing position with
  | nil => exact .ok ⟨rfl, rfl⟩
  | cons d deps ih =>
    refine (h d _).bind ?_
    rintro ⟨child, p⟩ ⟨child', _⟩ ⟨hkey, rfl⟩
    refine (ih p).bind ?_
    rintro ⟨children, p'⟩ ⟨children', _⟩ ⟨hkeys, rfl⟩
    refine .ok ⟨?_, rfl⟩
    rw [List.map_cons, List.map_cons, hkeys, hkey]

/-- The key of a tree does not depend on the existing features. -/
theorem constructFeatureTree_agree (dataSourceParams featureParams : NodeParams π)
    (existingFeatures : List (NamedFeature δ π)) (n : ℕ) (name : Option String) (rootDef : δ)
    (position : Positions) :
    Agree (fun r r' => defs.key r.1 = defs.key r'.1 ∧ r.2 = r'.2)
      (defs.constructFeatureTree dataSourceParams featureParams existingFeatures n name rootDef
        position)
      (defs.constructFeatureTree dataSourceParams featureParams [] n name rootDef position) := by
  induction n generalizing name rootDef position with
  | zero => exact .error _
  | succ n ih =>
    unfold constructFeatureTree
    split_ifs
    · refine (Agree.refl (fun _ => rfl) _).bind ?_
      rintro params _ rfl
      exact .ok ⟨key_reuse, rfl⟩
    · refine (Agree.refl (fun _ => rfl) _).bind ?_
      rintro params _ rfl
      refine (Agree.refl (fun _ => rfl) _).bind ?_
      rintro deps _ rfl
      refine (constructChildren_agree (fun d p => ih none d p) deps position).bind ?_
      rintro ⟨children, p⟩ ⟨children', _⟩ ⟨hkeys, rfl⟩
      refine .ok ⟨?_, rfl⟩
      rw [key_reuse, key_reuse, key_node, key_node, hkeys]

variable {config : FeatureConfig π} {deps : List String}

theorem constructFeature_agree (hdeps : config.deps = none) :
    Agree (fun f f' => defs.key f = defs.key f') (defs.constructFeature config existingFeatures)
      (defs.constructFeature config []) := by
  unfold constructFeature
  refine (Agree.refl (fun _ => rfl) _).bind ?_
  rintro rootDef _ rfl
  rw [hdeps]
  dsimp only
  cases defs.dataSourceParams config.params with
  | none => exact .error _
  | some dataSourceParams =>
    refine (constructFeatureTree_agree _ _ _ _ _ _ _).bind ?_
    rintro ⟨f, p⟩ ⟨f', _⟩ ⟨hkey, -⟩
    exact .ok hkey

/-- The dependencies of a feature are found by their names or keys. -/
theorem depFeatures_eq_ok_iff : defs.depFeatures existingFeatures deps = .ok children ↔
    List.Forall₂ (fun dep child => defs.getFeatureByKeyOrName existingFeatures dep = some child)
      deps children := by
  induction deps generalizing children with
  | nil =>
    rw [List.forall₂_nil_left_iff, depFeatures, Except.ok.injEq]
    exact eq_comm
  | cons dep deps ih =>
    rw [List.forall₂_cons_left_iff, depFeatures]
    cases hfind : defs.getFeatureByKeyOrName existingFeatures dep with
    | none => exact iff_of_false nofun nofun
    | some child =>
      dsimp only
      rw [bind_eq_ok_iff]
      constructor
      · rintro ⟨rest, hrest, h⟩
        exact ⟨child, rest, rfl, ih.1 hrest, (Except.ok.inj h).symm⟩
      · rintro ⟨child', rest, hchild, hrest, rfl⟩
        obtain rfl := Option.some.inj hchild
        exact ⟨rest, ih.2 hrest, rfl⟩

theorem of_getFeatureByKeyOrName (h : defs.getFeatureByKeyOrName existingFeatures k = some f) :
    f ∈ existingFeatures ∧ (defs.key f = k ∨ f.value.name = some k) :=
  ⟨List.mem_of_find?_eq_some h, by simpa using List.find?_some h⟩

theorem exists_of_depFeatures (h : defs.depFeatures existingFeatures deps = .ok children)
    {dep : String} (hdep : dep ∈ deps) :
    ∃ child, defs.getFeatureByKeyOrName existingFeatures dep = some child := by
  obtain ⟨i, hi, rfl⟩ := List.getElem_of_mem hdep
  have hall := depFeatures_eq_ok_iff.1 h
  exact ⟨_, hall.get hi (hall.length_eq ▸ hi)⟩

variable (defs existingFeatures) in
/-- The key of the feature that a dependency finds. -/
def keyOfDep (dep : String) : String :=
  ((defs.getFeatureByKeyOrName existingFeatures dep).map defs.key).getD dep

theorem map_key_of_depFeatures (h : defs.depFeatures existingFeatures deps = .ok children) :
    children.map defs.key = deps.map (defs.keyOfDep existingFeatures) := by
  rw [depFeatures_eq_ok_iff] at h
  induction h with
  | nil => rfl
  | cons h _ ih =>
    rw [List.map_cons, List.map_cons, ih, keyOfDep, h, Option.map_some, Option.getD_some]

theorem getFeatureByKeyOrName_isSome (hf : f ∈ existingFeatures)
    (h : defs.key f = k ∨ f.value.name = some k) :
    (defs.getFeatureByKeyOrName existingFeatures k).isSome := by
  rw [getFeatureByKeyOrName, List.find?_isSome]
  exact ⟨f, hf, decide_eq_true h⟩

theorem exists_of_hasAllDeps (h : defs.hasAllDeps existingFeatures deps) :
    ∃ children, defs.depFeatures existingFeatures deps = .ok children := by
  induction deps with
  | nil => exact ⟨[], rfl⟩
  | cons dep deps ih =>
    rw [hasAllDeps, List.all_cons, Bool.and_eq_true] at h
    obtain ⟨child, hchild⟩ := Option.isSome_iff_exists.1 h.1
    obtain ⟨rest, hrest⟩ := ih h.2
    exact ⟨child :: rest, depFeatures_eq_ok_iff.2 (.cons hchild (depFeatures_eq_ok_iff.1 hrest))⟩

/-- A generic feature. -/
theorem constructFeature_eq_ok_iff (hdeps : config.deps = some deps) :
    defs.constructFeature config existingFeatures = .ok f ↔ ∃ rootDef children,
      defs.load config.featureDefinition = .ok rootDef ∧
        defs.depFeatures existingFeatures deps = .ok children ∧
        f = defs.reuse existingFeatures
          (.node ⟨rootDef, config.params, config.name, false⟩ children) := by
  rw [constructFeature, bind_eq_ok_iff, hdeps]
  refine exists_congr fun rootDef => ?_
  dsimp only
  rw [bind_eq_ok_iff]
  constructor
  · rintro ⟨hload, children, hchildren, h⟩
    exact ⟨children, hload, hchildren, (Except.ok.inj h).symm⟩
  · rintro ⟨children, hload, hchildren, rfl⟩
    exact ⟨hload, children, hchildren, rfl⟩

theorem mem_of_depFeatures (h : defs.depFeatures existingFeatures deps = .ok children) :
    ∀ c ∈ children, c ∈ existingFeatures := by
  intro c hc
  obtain ⟨i, hi, rfl⟩ := List.getElem_of_mem hc
  have hall := depFeatures_eq_ok_iff.1 h
  exact (of_getFeatureByKeyOrName (hall.get (hall.length_eq ▸ hi) hi)).1

theorem constructed_of_constructFeature
    (h : defs.constructFeature config existingFeatures = .ok f) :
    defs.Constructed existingFeatures config.name f := by
  cases hdeps : config.deps with
  | none =>
    obtain ⟨rootDef, -, h⟩ := bind_eq_ok_iff.1 h
    rw [hdeps] at h
    dsimp only at h
    cases hparams : defs.dataSourceParams config.params with
    | none => rw [hparams] at h; cases h
    | some dataSourceParams =>
      rw [hparams] at h
      obtain ⟨r, hr, h⟩ := bind_eq_ok_iff.1 h
      obtain rfl := Except.ok.inj h
      exact constructed_of_constructFeatureTree hr
  | some deps =>
    obtain ⟨rootDef, children, -, hchildren, rfl⟩ := (constructFeature_eq_ok_iff hdeps).1 h
    exact constructed_reuse ⟨rootDef, config.params, config.name, false⟩
      fun c hc g hg _ => ⟨c, mem_of_depFeatures hchildren c hc, hg⟩

/-! ### The existing features -/

theorem subset_addIfMissing : existingFeatures ⊆ defs.addIfMissing existingFeatures f := by
  unfold addIfMissing
  split_ifs
  · exact List.Subset.refl _
  · exact List.subset_append_left _ _

/-- What is appended is new. -/
theorem mem_addIfMissing (h : g ∈ defs.addIfMissing existingFeatures f) :
    g ∈ existingFeatures ∨ g = f ∧ defs.key g ∉ existingFeatures.map defs.key := by
  unfold addIfMissing at h
  split_ifs at h with hany
  · exact .inl h
  · rcases List.mem_append.1 h with h | h
    · exact .inl h
    · obtain rfl := List.mem_singleton.1 h
      refine .inr ⟨rfl, fun hmem => hany ?_⟩
      obtain ⟨existing, hexisting, hkey⟩ := List.mem_map.1 hmem
      exact List.any_eq_true.2 ⟨existing, hexisting, decide_eq_true hkey⟩

theorem key_mem_addIfMissing :
    defs.key f ∈ (defs.addIfMissing existingFeatures f).map defs.key := by
  unfold addIfMissing
  split_ifs with hany
  · obtain ⟨existing, hexisting, hkey⟩ := List.any_eq_true.1 hany
    exact List.mem_map.2 ⟨existing, hexisting, of_decide_eq_true hkey⟩
  · exact List.mem_map_of_mem (List.mem_append_right _ (List.mem_singleton_self f))

variable {fs : List (NamedFeature δ π)}

theorem subset_foldl_addIfMissing :
    existingFeatures ⊆ fs.foldl defs.addIfMissing existingFeatures := by
  induction fs generalizing existingFeatures with
  | nil => exact List.Subset.refl _
  | cons f fs ih => exact List.Subset.trans subset_addIfMissing ih

theorem mem_foldl_addIfMissing (h : g ∈ fs.foldl defs.addIfMissing existingFeatures) :
    g ∈ existingFeatures ∨ g ∈ fs ∧ defs.key g ∉ existingFeatures.map defs.key := by
  induction fs generalizing existingFeatures with
  | nil => exact .inl h
  | cons f fs ih =>
    rcases ih h with hg | ⟨hg, hkey⟩
    · refine (mem_addIfMissing hg).imp_right ?_
      rintro ⟨rfl, hkey⟩
      exact ⟨List.mem_cons_self, hkey⟩
    · exact .inr ⟨List.mem_cons_of_mem f hg,
        fun hmem => hkey (List.map_subset _ subset_addIfMissing hmem)⟩

theorem key_mem_foldl_addIfMissing (h : g ∈ fs) :
    defs.key g ∈ (fs.foldl defs.addIfMissing existingFeatures).map defs.key := by
  induction fs generalizing existingFeatures with
  | nil => cases h
  | cons f fs ih =>
    rw [List.foldl_cons]
    rcases List.mem_cons.1 h with rfl | h
    · exact List.map_subset _ subset_foldl_addIfMissing key_mem_addIfMissing
    · exact ih h

theorem updateExisting_eq : defs.updateExisting existingFeatures f =
    (defs.getDepFeaturesInorder f ++ defs.getDataSources f).foldl defs.addIfMissing
      (existingFeatures ++ [f]) :=
  List.foldl_append.symm

/-- Every part of a feature is a feature or a data source. -/
theorem mem_nodes_iff :
    g ∈ defs.getDepFeaturesInorder f ++ defs.getDataSources f ↔ g ∈ f.postorder := by
  rw [List.mem_append, getDepFeaturesInorder, getDataSources, List.mem_filter, List.mem_filter,
    RoseTree.mem_inorder_iff, ← and_or_left]
  cases defs.isDataSource g.value.dataDefinition <;> simp

theorem subset_updateExisting : existingFeatures ⊆ defs.updateExisting existingFeatures f := by
  rw [updateExisting_eq]
  exact List.Subset.trans (List.subset_append_left _ _) subset_foldl_addIfMissing

theorem self_mem_updateExisting : f ∈ defs.updateExisting existingFeatures f := by
  rw [updateExisting_eq]
  exact subset_foldl_addIfMissing (List.mem_append_right _ (List.mem_singleton_self f))

theorem key_mem_updateExisting (h : g ∈ f.postorder) :
    defs.key g ∈ (defs.updateExisting existingFeatures f).map defs.key := by
  rw [updateExisting_eq]
  exact key_mem_foldl_addIfMissing (mem_nodes_iff.2 h)

theorem mem_updateExisting (h : g ∈ defs.updateExisting existingFeatures f) :
    g ∈ existingFeatures ∨ g = f ∨
      g ∈ f.postorder ∧ defs.key g ∉ existingFeatures.map defs.key := by
  rw [updateExisting_eq] at h
  rcases mem_foldl_addIfMissing h with hg | ⟨hg, hkey⟩
  · exact (List.mem_append.1 hg).imp_right fun hg => .inl (List.mem_singleton.1 hg)
  · refine .inr (.inr ⟨mem_nodes_iff.1 hg, fun hmem => hkey ?_⟩)
    exact List.map_subset _ (List.subset_append_left _ _) hmem

end Definitions

end Svoe
