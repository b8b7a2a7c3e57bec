import Svoe.Features.Construct

/-!
# Named features in every order of construction

A new feature that is equal to an existing one is the existing one, with the name that it has.
So the name of a config gets lost if a feature with its key has been built before: of another
config, or as a dependency of one.

* `Invariant.build`, `Built.invariant` : names belong to configs that were new when they were built.
* `Built.exists_ready` : configs that are built apart never wait for each other.
* `resolvesInAnyOrder_iff` : names can be found in every order exactly if the configs are built
  apart.
-/

namespace Svoe

variable {δ π : Type} {defs : Definitions δ π} {existingFeatures children : List (NamedFeature δ π)}
  {f g : NamedFeature δ π}

/-! ### What has been built -/

variable {configs order : List (FeatureConfig π)} {config c : FeatureConfig π}
  {st : Construction δ π} {key : String}

/-- Building a config on its own creates a feature with the key. -/
def Creates (defs : Definitions δ π) (configs : List (FeatureConfig π)) (config : FeatureConfig π)
    (key : String) : Prop :=
  HasKey defs configs config key ∨
    config.deps = none ∧ ∃ f, defs.constructFeature config [] = .ok f ∧ key ∈ defs.subKeys f

/-- Nothing that was built before a config has its key. -/
def IsNew (defs : Definitions δ π) (configs before : List (FeatureConfig π)) (key : String) :
    Prop :=
  ∀ c ∈ before, ¬ Creates defs configs c key

/-- Configs with distinct names, of which no one is a key of what they create, that depend on each
other by names or keys and in no cycle. -/
structure NamedConfigs (defs : Definitions δ π) (configs : List (FeatureConfig π)) : Prop where
  names_nodup : (configs.map FeatureConfig.name).Nodup
  named : ∀ config ∈ configs, config.name ≠ none
  not_key : ∀ config ∈ configs, ∀ c ∈ configs, ∀ key, Creates defs configs c key →
    config.name ≠ some key
  acyclic : ∃ rank : FeatureConfig π → ℕ, ∀ config ∈ configs, ∀ deps, config.deps = some deps →
    ∀ dep ∈ deps, ∃ c ∈ configs, (c.name = some dep ∨ Creates defs configs c dep) ∧
      rank c < rank config

/-- What is known of the features built of the configs in some order: names belong to configs that
were new when they were built. -/
structure Invariant (defs : Definitions δ π) (configs order : List (FeatureConfig π))
    (st : Construction δ π) : Prop where
  closed : ∀ f ∈ st.existingFeatures, ∀ g ∈ f.postorder,
    defs.key g ∈ st.existingFeatures.map defs.key
  named : ∀ f ∈ st.existingFeatures, ∀ g ∈ f.postorder, ∀ name, g.value.name = some name →
    ∃ before config behind, order = before ++ config :: behind ∧ config.name = some name ∧
      HasKey defs configs config (defs.key g) ∧ IsNew defs configs before (defs.key g)
  created : ∀ config ∈ order, ∀ key, Creates defs configs config key →
    key ∈ st.existingFeatures.map defs.key
  creates : ∀ f ∈ st.existingFeatures, ∃ config ∈ order, Creates defs configs config (defs.key f)
  features_subset : st.features ⊆ st.existingFeatures
  found : ∀ before config behind, order = before ++ config :: behind → ∀ key,
    HasKey defs configs config key → IsNew defs configs before key →
      ∃ f ∈ st.features, f.value.name = config.name ∧ defs.key f = key
  hasKey : ∀ config ∈ order, ∃ key, HasKey defs configs config key

/-- What is created has a digest as its key. -/
theorem Creates.exists_hash (h : Creates defs configs config key) :
    ∃ values, key = defs.hash values := by
  rcases h with (⟨-, -⟩ | -) | ⟨-, f, -, hmem⟩
  · exact Definitions.exists_hash _
  · exact ⟨_, rfl⟩
  · obtain ⟨g, -, rfl⟩ := List.mem_map.1 hmem
    exact Definitions.exists_hash g

/-- A config has one key. -/
theorem HasKey.unique {key' : String} (h : HasKey defs configs config key)
    (h' : HasKey defs configs config key') : key = key' := by
  induction h generalizing key' with
  | derived hdeps hf =>
    cases h' with
    | derived hdeps' hf' => rw [Except.ok.inj (hf.symm.trans hf')]
    | generic keyOf' hdeps' => rw [hdeps] at hdeps'; cases hdeps'
  | @generic config deps rootDef keyOf hdeps hload hname hkey ih =>
    cases h' with
    | derived hdeps' => rw [hdeps] at hdeps'; cases hdeps'
    | generic keyOf' hdeps' hload' hname' hkey' =>
      obtain rfl := Option.some.inj (hdeps.symm.trans hdeps')
      obtain rfl := Except.ok.inj (hload.symm.trans hload')
      have hkeys : deps.map keyOf = deps.map keyOf' := by
        refine List.map_congr_left fun dep hdep => ?_
        by_cases hc : ∃ c ∈ configs, c.name = some dep
        · obtain ⟨c, hc, hcname⟩ := hc
          exact ih dep hdep c hc hcname (hname' dep hdep c hc hcname)
        · have hno : ∀ c ∈ configs, c.name ≠ some dep := fun c hc' h => hc ⟨c, hc', h⟩
          rw [hkey dep hdep hno, hkey' dep hdep hno]
      rw [hkeys]

theorem NamedConfigs.eq_of_name (hnamed : NamedConfigs defs configs) (hc : c ∈ configs)
    (hconfig : config ∈ configs) (h : c.name = config.name) : c = config :=
  List.inj_on_of_nodup_map hnamed.names_nodup hc hconfig h

/-- What is found under the name of a config has that name. -/
theorem Invariant.name_of_getFeature (hinv : Invariant defs configs order st)
    (hnamed : NamedConfigs defs configs) (horder : order ⊆ configs)
    (hsubset : existingFeatures ⊆ st.existingFeatures) (hc : c ∈ configs) {name : String}
    (hname : c.name = some name) (h : defs.getFeatureByKeyOrName existingFeatures name = some f) :
    f.value.name = some name := by
  obtain ⟨hmem, hkey⟩ := Definitions.of_getFeatureByKeyOrName h
  refine hkey.resolve_left fun hkey => ?_
  obtain ⟨config, hconfig, hcreates⟩ := hinv.creates f (hsubset hmem)
  rw [hkey] at hcreates
  exact hnamed.not_key c hc config (horder hconfig) name hcreates hname

/-! ### One more config -/

variable {st : Construction δ π}

/-- A derived feature has the key that it has on its own. -/
theorem exists_alone (hdeps : config.deps = none)
    (hf : defs.constructFeature config existingFeatures = .ok f) :
    ∃ alone, defs.constructFeature config [] = .ok alone ∧ defs.key f = defs.key alone := by
  have hagree : Agree (fun f f' => defs.key f = defs.key f')
      (defs.constructFeature config existingFeatures) (defs.constructFeature config []) :=
    Definitions.constructFeature_agree hdeps
  rw [hf] at hagree
  exact hagree.of_ok_left

section Step

variable (hnamed : NamedConfigs defs configs) (hinv : Invariant defs configs order st)
  (horder : order ⊆ configs)
  (hf : defs.constructFeature config st.existingFeatures = .ok f)

include hnamed hinv horder hf

/-- The feature built of a config has its key. -/
theorem Invariant.hasKey_of_constructFeature : HasKey defs configs config (defs.key f) := by
  cases hdeps : config.deps with
  | none =>
    obtain ⟨alone, halone, hkey⟩ := exists_alone hdeps hf
    rw [hkey]
    exact .derived hdeps halone
  | some deps =>
    obtain ⟨rootDef, children, hload, hchildren, rfl⟩ :=
      (Definitions.constructFeature_eq_ok_iff hdeps).1 hf
    rw [Definitions.key_reuse, Definitions.key_node, Definitions.map_key_of_depFeatures hchildren]
    refine .generic _ hdeps hload (fun dep hdep c hc hcname => ?_) fun dep hdep hno => ?_
    · obtain ⟨child, hfound⟩ := Definitions.exists_of_depFeatures hchildren hdep
      have hmem := (Definitions.of_getFeatureByKeyOrName hfound).1
      have hname := hinv.name_of_getFeature hnamed horder (List.Subset.refl _) hc hcname hfound
      obtain ⟨before, c', behind, rfl, hc'name, hkey, -⟩ :=
        hinv.named _ hmem _ (RoseTree.mem_postorder_self _) _ hname
      have hc' : c' ∈ configs := horder (by simp)
      obtain rfl := hnamed.eq_of_name hc' hc (hc'name.trans hcname.symm)
      rwa [Definitions.keyOfDep, hfound]
    · obtain ⟨child, hfound⟩ := Definitions.exists_of_depFeatures hchildren hdep
      obtain ⟨hmem, hchild⟩ := Definitions.of_getFeatureByKeyOrName hfound
      have hkey : defs.key child = dep := by
        refine hchild.resolve_right fun hname => ?_
        obtain ⟨before, c, behind, rfl, hcname, -⟩ :=
          hinv.named _ hmem _ (RoseTree.mem_postorder_self _) _ hname
        exact hno c (horder (by simp)) hcname
      rw [Definitions.keyOfDep, hfound, Option.map_some, Option.getD_some, hkey]

omit hnamed horder hf in
/-- A named part of an existing feature has been built of a config. -/
theorem Invariant.named_append (hg : g ∈ st.existingFeatures) {g' : NamedFeature δ π}
    (hg' : g' ∈ g.postorder) {name : String} (hname : g'.value.name = some name) :
    ∃ before c behind, order ++ [config] = before ++ c :: behind ∧ c.name = some name ∧
      HasKey defs configs c (defs.key g') ∧ IsNew defs configs before (defs.key g') := by
  obtain ⟨before, c, behind, rfl, hrest⟩ := hinv.named g hg g' hg' name hname
  exact ⟨before, c, behind ++ [config], by simp, hrest⟩

/-- So is a named part of the feature. -/
theorem Invariant.named_of_constructFeature {g' : NamedFeature δ π} (hg' : g' ∈ f.postorder)
    {name : String} (hname : g'.value.name = some name) :
    ∃ before c behind, order ++ [config] = before ++ c :: behind ∧ c.name = some name ∧
      HasKey defs configs c (defs.key g') ∧ IsNew defs configs before (defs.key g') := by
  have hkey := hinv.hasKey_of_constructFeature hnamed horder hf
  rcases Definitions.constructed_of_constructFeature hf with hmem | ⟨hmem, hfname, hparts⟩
  · exact hinv.named_append hmem hg' hname
  · rw [RoseTree.postorder_eq, RoseTree.postorderAll_eq, List.mem_append, List.mem_flatMap,
      List.mem_singleton] at hg'
    rcases hg' with ⟨c, hc, hg'⟩ | rfl
    · obtain ⟨existing, hexisting, hg'⟩ :=
        hparts c hc g' hg' (by rw [hname]; exact Option.some_ne_none name)
      exact hinv.named_append hexisting hg' hname
    · have hnew : IsNew defs configs order (defs.key g') := fun c hc hcreates =>
        hmem (hinv.created c hc _ hcreates)
      exact ⟨order, config, [], rfl, hfname.symm.trans hname, hkey, hnew⟩

variable (hinj : Function.Injective defs.hash)

include hinj

/-- The parts of the feature are existing ones, and what the config creates. -/
theorem Invariant.mem_or_creates (hg : g ∈ f.postorder) :
    defs.key g ∈ st.existingFeatures.map defs.key ∨ Creates defs configs config (defs.key g) := by
  have hkey := hinv.hasKey_of_constructFeature hnamed horder hf
  cases hdeps : config.deps with
  | none =>
    obtain ⟨alone, halone, hsame⟩ := exists_alone hdeps hf
    refine .inr (.inr ⟨hdeps, alone, halone, ?_⟩)
    exact (Definitions.mem_subKeys_congr hinj hsame).1 (Definitions.key_mem_subKeys hg)
  | some deps =>
    obtain ⟨rootDef, children, -, hchildren, rfl⟩ :=
      (Definitions.constructFeature_eq_ok_iff hdeps).1 hf
    have hcases : defs.reuse st.existingFeatures
          (.node ⟨rootDef, config.params, config.name, false⟩ children) ∈ st.existingFeatures ∨
        defs.reuse st.existingFeatures
          (.node ⟨rootDef, config.params, config.name, false⟩ children) = _ :=
      Definitions.reuse_cases
    rcases hcases with hmem | heq
    · exact .inl (hinv.closed _ hmem g hg)
    · rw [heq] at hg hkey
      rw [RoseTree.postorder, RoseTree.postorderAll_eq, List.mem_append, List.mem_flatMap,
        List.mem_singleton] at hg
      rcases hg with ⟨c, hc, hg⟩ | rfl
      · exact .inl (hinv.closed c (Definitions.mem_of_depFeatures hchildren c hc) g hg)
      · exact .inr (.inl hkey)

/-- All that the config creates is a part of the feature. -/
theorem Invariant.mem_subKeys_of_creates (h : Creates defs configs config key) :
    key ∈ defs.subKeys f := by
  have hkey := hinv.hasKey_of_constructFeature hnamed horder hf
  rcases h with h | ⟨hdeps, alone, halone, hmem⟩
  · rw [h.unique hkey]
    exact Definitions.key_mem_subKeys (RoseTree.mem_postorder_self f)
  · obtain ⟨alone', halone', hsame⟩ := exists_alone hdeps hf
    obtain rfl := Except.ok.inj (halone.symm.trans halone')
    exact (Definitions.mem_subKeys_congr hinj hsame).2 hmem

variable [DecidableEq π]

/-- **One more config** keeps what is known. -/
theorem Invariant.build :
    Invariant defs configs (order ++ [config]) (defs.build st config f) := by
  have hkey := hinv.hasKey_of_constructFeature hnamed horder hf
  have hconstructed := Definitions.constructed_of_constructFeature hf
  refine ⟨fun g hg g' hg' => ?_, fun g hg g' hg' name hname => ?_, fun c hc key hcreates => ?_,
    fun g hg => ?_, fun g hg => ?_, fun before c behind heq key hckey hisNew => ?_, fun c hc => ?_⟩
  · -- what is appended is a part of the new feature, and so are its parts
    rcases Definitions.mem_updateExisting hg with hg | rfl | ⟨hg, -⟩
    · exact List.map_subset _ Definitions.subset_updateExisting (hinv.closed g hg g' hg')
    · exact Definitions.key_mem_updateExisting hg'
    · exact Definitions.key_mem_updateExisting (RoseTree.mem_postorder_trans hg' hg)
  · rcases Definitions.mem_updateExisting hg with hg | rfl | ⟨hg, -⟩
    · exact hinv.named_append hg hg' hname
    · exact hinv.named_of_constructFeature hnamed horder hf hg' hname
    · exact hinv.named_of_constructFeature hnamed horder hf
        (RoseTree.mem_postorder_trans hg' hg) hname
  · rcases List.mem_append.1 hc with hc | hc
    · exact List.map_subset _ Definitions.subset_updateExisting (hinv.created c hc key hcreates)
    · obtain rfl := List.mem_singleton.1 hc
      obtain ⟨g, hg, rfl⟩ := List.mem_map.1
        (hinv.mem_subKeys_of_creates hnamed horder hf hinj hcreates)
      exact Definitions.key_mem_updateExisting hg
  · rcases Definitions.mem_updateExisting hg with hg | rfl | ⟨hg, hmem⟩
    · obtain ⟨c, hc, hcreates⟩ := hinv.creates g hg
      exact ⟨c, List.mem_append_left _ hc, hcreates⟩
    · exact ⟨config, List.mem_append_right _ (List.mem_singleton_self config), .inl hkey⟩
    · have hcreates := (hinv.mem_or_creates hnamed horder hf hinj hg).resolve_left hmem
      exact ⟨config, List.mem_append_right _ (List.mem_singleton_self config), hcreates⟩
  · rcases List.mem_append.1 hg with hg | hg
    · exact Definitions.subset_updateExisting (hinv.features_subset hg)
    · obtain rfl := List.mem_singleton.1 hg
      exact Definitions.self_mem_updateExisting
  · rcases behind.eq_nil_or_concat with rfl | ⟨behind, c', rfl⟩
    · obtain ⟨rfl, hc⟩ := List.append_inj' heq rfl
      obtain rfl := List.singleton_inj.1 hc
      obtain rfl := hckey.unique hkey
      rcases hconstructed with hmem | ⟨-, hfname, -⟩
      · obtain ⟨c', hc', hcreates⟩ := hinv.creates f hmem
        exact absurd hcreates (hisNew c' hc')
      · exact ⟨f, List.mem_append_right _ (List.mem_singleton_self f), hfname, rfl⟩
    · have heq' : order ++ [config] = (before ++ c :: behind) ++ [c'] := by
        rw [heq]; simp
      obtain ⟨g, hg, hrest⟩ :=
        hinv.found before c behind (List.append_inj' heq' rfl).1 key hckey hisNew
      exact ⟨g, List.mem_append_left _ hg, hrest⟩
  · rcases List.mem_append.1 hc with hc | hc
    · exact hinv.hasKey c hc
    · obtain rfl := List.mem_singleton.1 hc
      exact ⟨_, hkey⟩

end Step

/-! ### Runs -/

/-- A config whose dependencies have been built. -/
def Ready (defs : Definitions δ π) (st : Construction δ π) (config : FeatureConfig π) : Prop :=
  ∀ deps, config.deps = some deps → defs.hasAllDeps st.existingFeatures deps

/-- A config that has a key can be built once its dependencies have been. -/
theorem exists_constructFeature {key : String} (hkey : HasKey defs configs config key)
    (hready : Ready defs st config) :
    ∃ f, defs.constructFeature config st.existingFeatures = .ok f := by
  cases hkey with
  | derived hdeps hf =>
    have hagree : Agree (fun f f' => defs.key f = defs.key f')
        (defs.constructFeature config st.existingFeatures) (defs.constructFeature config []) :=
      Definitions.constructFeature_agree hdeps
    rw [hf] at hagree
    obtain ⟨f, hf, -⟩ := hagree.of_ok_right
    exact ⟨f, hf⟩
  | generic keyOf hdeps hload _ _ =>
    obtain ⟨children, hchildren⟩ := Definitions.exists_of_hasAllDeps (hready _ hdeps)
    exact ⟨_, (Definitions.constructFeature_eq_ok_iff hdeps).2
      ⟨_, children, hload, hchildren, rfl⟩⟩

section Runs

variable [DecidableEq π] {configs' : List (FeatureConfig π)} {features : List (NamedFeature δ π)}
  {n i : ℕ}

/-- What is known after any run. -/
theorem Built.invariant (hnamed : NamedConfigs defs configs)
    (hinj : Function.Injective defs.hash) (hperm : configs'.Perm configs)
    (h : Built defs configs' order st) : Invariant defs configs order st := by
  induction h with
  | nil => constructor <;> simp
  | @snoc order st config f h hmem hf ih =>
    have hsubset : order ++ st.configs ⊆ configs := (h.perm.trans hperm).subset
    exact ih.build hnamed (fun c hc => hsubset (List.mem_append_left _ hc)) hf hinj

/-- No config but itself creates the feature of a config. -/
def BuiltApart (defs : Definitions δ π) (configs : List (FeatureConfig π)) : Prop :=
  (∀ config ∈ configs, ∃ key, HasKey defs configs config key) ∧
    ∀ config ∈ configs, ∀ c ∈ configs, c ≠ config → ∀ key, HasKey defs configs config key →
      ¬ Creates defs configs c key

/-- In every order, all features are built, and found under their names with the same keys. -/
def ResolvesInAnyOrder (defs : Definitions δ π) (configs : List (FeatureConfig π)) : Prop :=
  ∃ keyOf : FeatureConfig π → String, ∀ configs', configs'.Perm configs → ∃ features rest,
    defs.constructFeaturesFromConfigs configs' = .ok (features, rest) ∧
      ∀ config ∈ configs, ∀ name, config.name = some name →
        ∃ f, defs.getFeatureByKeyOrName features name = some f ∧ f.value.name = some name ∧
          defs.key f = keyOf config

section Apart

variable (hnamed : NamedConfigs defs configs) (hinj : Function.Injective defs.hash)
  (hapart : BuiltApart defs configs) (hperm : configs'.Perm configs)
  (h : Built defs configs' order st)

include hapart hperm h

/-- A config that is ready can be built. -/
theorem Built.exists_constructFeature (hconfig : config ∈ st.configs)
    (hready : Ready defs st config) :
    ∃ f, defs.constructFeature config st.existingFeatures = .ok f := by
  obtain ⟨key, hkey⟩ := hapart.1 config
    ((h.perm.trans hperm).subset (List.mem_append_right _ hconfig))
  exact Svoe.exists_constructFeature hkey hready

/-- A scan does not raise, and removes a config if one that it comes to is ready. -/
theorem Built.exists_scan (n i : ℕ) : ∃ st', defs.scan n i st = .ok st' ∧
    st'.configs.length ≤ st.configs.length ∧ ∀ j config, i ≤ j → j < i + n →
      st.configs[j]? = some config → Ready defs st config →
        st'.configs.length < st.configs.length := by
  induction n generalizing i order st with
  | zero => exact ⟨st, rfl, le_rfl, fun j config hij hj => absurd hj (not_lt.2 hij)⟩
  | succ n ih =>
    unfold Definitions.scan
    cases hconfig : st.configs[i]? with
    | none =>
      refine ⟨st, rfl, le_rfl, fun j config hij _ hj => ?_⟩
      rw [List.getElem?_eq_none ((List.getElem?_eq_none_iff.1 hconfig).trans hij)] at hj
      cases hj
    | some config =>
      have hmem := List.mem_of_getElem? hconfig
      have hlt : ∀ f, (defs.build st config f).configs.length < st.configs.length := fun f => by
        rw [Definitions.build, List.length_erase_of_mem hmem]
        exact Nat.sub_lt (List.length_pos_of_mem hmem) Nat.one_pos
      dsimp only
      cases hdeps : config.deps with
      | none =>
        obtain ⟨f, hf⟩ := h.exists_constructFeature hapart hperm hmem
          fun deps hdeps' => by rw [hdeps] at hdeps'; cases hdeps'
        dsimp only
        rw [hf]
        exact ⟨_, rfl, (hlt f).le, fun _ _ _ _ _ _ => hlt f⟩
      | some deps =>
        dsimp only
        split_ifs with hall
        · obtain ⟨f, hf⟩ := h.exists_constructFeature hapart hperm hmem
            fun deps' hdeps' => Option.some.inj (hdeps.symm.trans hdeps') ▸ hall
          rw [hf]
          obtain ⟨st', hst', hle, -⟩ := ih (h.snoc hmem hf) (i + 1)
          exact ⟨st', hst', hle.trans (hlt f).le, fun _ _ _ _ _ _ => hle.trans_lt (hlt f)⟩
        · obtain ⟨st', hst', hle, hready⟩ := ih h (i + 1)
          refine ⟨st', hst', hle, fun j c hij hj hc hcready => ?_⟩
          rcases hij.eq_or_lt with rfl | hij
          · obtain rfl := Option.some.inj (hconfig.symm.trans hc)
            exact absurd (hcready deps hdeps) hall
          · exact hready j c hij (by omega) hc hcready

include hnamed hinj

/-- A config that was built is found under its name. -/
theorem Built.exists_feature {before behind : List (FeatureConfig π)}
    (horder : order = before ++ config :: behind) {key : String}
    (hkey : HasKey defs configs config key) :
    ∃ f ∈ st.features, f.value.name = config.name ∧ defs.key f = key := by
  have hinv := h.invariant hnamed hinj hperm
  have hsubset : order ⊆ configs := fun c hc =>
    (h.perm.trans hperm).subset (List.mem_append_left _ hc)
  have hnodup : order.Nodup := by
    have hall := (h.perm.trans hperm).nodup_iff.2 (List.Nodup.of_map _ hnamed.names_nodup)
    exact (List.nodup_append.1 hall).1
  refine hinv.found before config behind horder key hkey fun c hc hcreates => ?_
  subst horder
  have hne : c ≠ config := fun heq =>
    (List.nodup_append.1 hnodup).2.2 c hc config List.mem_cons_self heq
  exact hapart.2 config (hsubset (by simp)) c (hsubset (List.mem_append_left _ hc)) hne key hkey
    hcreates

/-- Some config that is left can be built. -/
theorem Built.exists_ready (hnil : st.configs ≠ []) :
    ∃ config ∈ st.configs, Ready defs st config := by
  have hinv := h.invariant hnamed hinj hperm
  have hall := h.perm.trans hperm
  obtain ⟨rank, hrank⟩ := hnamed.acyclic
  obtain ⟨config, hconfig⟩ := List.exists_mem_of_ne_nil _ hnil
  induction hr : rank config using Nat.strong_induction_on generalizing config with
  | _ r ih =>
    by_cases hready : Ready defs st config
    · exact ⟨config, hconfig, hready⟩
    · -- a dependency is missing, and it is not among the configs that were built
      simp only [Ready, not_forall] at hready
      obtain ⟨deps, hdeps, hmissing⟩ := hready
      rw [Definitions.hasAllDeps, List.all_eq_true, not_forall] at hmissing
      obtain ⟨dep, hmissing⟩ := hmissing
      rw [Classical.not_imp] at hmissing
      obtain ⟨hdep, hmissing⟩ := hmissing
      obtain ⟨c, hc, hdepc, hlt⟩ :=
        hrank config (hall.subset (List.mem_append_right _ hconfig)) deps hdeps dep hdep
      rcases List.mem_append.1 (hall.mem_iff.2 hc) with hbuilt | hleft
      · refine absurd ?_ hmissing
        rcases hdepc with hcname | hcreates
        · obtain ⟨key, hkey⟩ := hapart.1 c hc
          obtain ⟨before, behind, horder⟩ := List.append_of_mem hbuilt
          obtain ⟨f, hf, hfname, -⟩ := h.exists_feature hnamed hinj hapart hperm horder hkey
          exact Definitions.getFeatureByKeyOrName_isSome (hinv.features_subset hf)
            (.inr (hfname.trans hcname))
        · obtain ⟨f, hf, hkey⟩ := List.mem_map.1 (hinv.created c hbuilt dep hcreates)
          exact Definitions.getFeatureByKeyOrName_isSome hf (.inl hkey)
      · exact ih _ (hr ▸ hlt) c hleft rfl

/-- The `while` loop does not raise. -/
theorem Built.exists_whileConfigs (hn : st.configs.length ≤ n) :
    ∃ st', defs.whileConfigs n st = .ok st' := by
  induction n generalizing order st with
  | zero => exact ⟨st, rfl⟩
  | succ n ih =>
    unfold Definitions.whileConfigs
    split_ifs with hnil
    · exact ⟨st, rfl⟩
    · obtain ⟨config, hconfig, hready⟩ := h.exists_ready hnamed hinj hapart hperm hnil
      obtain ⟨j, hj⟩ := List.getElem?_of_mem hconfig
      obtain ⟨st', hst', -, hlt⟩ := h.exists_scan hapart hperm st.configs.length 0
      have hless := hlt j config (Nat.zero_le j)
        (by simpa using (List.getElem?_eq_some_iff.1 hj).1) hj hready
      obtain ⟨behind, hbuilt⟩ := h.scan hst'
      obtain ⟨st'', hst''⟩ := ih hbuilt (by omega)
      refine ⟨st'', ?_⟩
      rw [hst']
      change (if st'.configs.length = st.configs.length then _ else _) = _
      rw [if_neg hless.ne, hst'']

end Apart

variable (hnamed : NamedConfigs defs configs) (hinj : Function.Injective defs.hash)

include hnamed hinj

/-- The feature that is found under the name of a config is that of the config, and was new when it
was built. -/
theorem Built.of_getFeature (hperm : configs'.Perm configs) (h : Built defs configs' order st)
    (hconfig : config ∈ configs) {name : String} (hname : config.name = some name)
    (hf : defs.getFeatureByKeyOrName st.features name = some f) :
    f.value.name = some name ∧ HasKey defs configs config (defs.key f) ∧
      ∃ before behind, order = before ++ config :: behind ∧
        IsNew defs configs before (defs.key f) := by
  have hinv := h.invariant hnamed hinj hperm
  have horder : order ⊆ configs := fun c hc =>
    (h.perm.trans hperm).subset (List.mem_append_left _ hc)
  have hfname := hinv.name_of_getFeature hnamed horder hinv.features_subset hconfig hname hf
  have hmem := hinv.features_subset (Definitions.of_getFeatureByKeyOrName hf).1
  obtain ⟨before, c, behind, rfl, hcname, hkey, hisNew⟩ :=
    hinv.named f hmem f (RoseTree.mem_postorder_self f) name hfname
  obtain rfl := hnamed.eq_of_name (horder (by simp)) hconfig (hcname.trans hname.symm)
  exact ⟨hfname, hkey, before, behind, rfl, hisNew⟩

/-- Configs that are built apart are found in every order. -/
theorem BuiltApart.resolves (hapart : BuiltApart defs configs) :
    ResolvesInAnyOrder defs configs := by
  choose! keyOf hkeyOf using hapart.1
  refine ⟨keyOf, fun configs' hperm => ?_⟩
  obtain ⟨st, hst⟩ :=
    Built.nil.exists_whileConfigs hnamed hinj hapart hperm (le_refl configs'.length)
  obtain ⟨hnil, order, hbuilt⟩ := Built.nil.whileConfigs le_rfl hst
  have hall := hbuilt.perm.trans hperm
  rw [hnil, List.append_nil] at hall
  refine ⟨st.features, st.configs, bind_eq_ok_iff.2 ⟨st, hst, rfl⟩,
    fun config hconfig name hname => ?_⟩
  obtain ⟨before, behind, horder⟩ := List.append_of_mem (hall.mem_iff.2 hconfig)
  obtain ⟨g, hg, hgname, -⟩ := hbuilt.exists_feature hnamed hinj hapart hperm horder
    (hkeyOf config hconfig)
  obtain ⟨f, hf⟩ := Option.isSome_iff_exists.1
    (Definitions.getFeatureByKeyOrName_isSome hg (.inr (hgname.trans hname)))
  obtain ⟨hfname, hkey, -⟩ := hbuilt.of_getFeature hnamed hinj hperm hconfig hname hf
  exact ⟨f, hf, hfname, hkey.unique (hkeyOf config hconfig)⟩

/-- A config that is found under its name was new when it was built. -/
theorem Built.exists_isNew (hperm : configs'.Perm configs) (h : Built defs configs' order st)
    (hconfig : config ∈ configs) {key : String} (hkey : HasKey defs configs config key)
    (hfound : ∀ name, config.name = some name →
      ∃ f, defs.getFeatureByKeyOrName st.features name = some f) :
    ∃ before behind, order = before ++ config :: behind ∧ IsNew defs configs before key := by
  obtain ⟨name, hname⟩ := Option.ne_none_iff_exists'.1 (hnamed.named config hconfig)
  obtain ⟨f, hf⟩ := hfound name hname
  obtain ⟨-, hkeyf, hnew⟩ := h.of_getFeature hnamed hinj hperm hconfig hname hf
  rwa [hkey.unique hkeyf]

/-- Configs that are found in every order are built apart. -/
theorem ResolvesInAnyOrder.builtApart (hresolves : ResolvesInAnyOrder defs configs) :
    BuiltApart defs configs := by
  obtain ⟨keyOf, hresolves⟩ := hresolves
  obtain ⟨features, rest, hrun, hfound⟩ := hresolves configs (List.Perm.refl configs)
  obtain ⟨-, order, st, hbuilt, horder, rfl⟩ := built_of_constructFeaturesFromConfigs hrun
  have hnew : ∀ c ∈ configs, ∀ key, HasKey defs configs c key →
      ∃ before behind, order = before ++ c :: behind ∧ IsNew defs configs before key :=
    fun c hc key hkey => hbuilt.exists_isNew hnamed hinj (List.Perm.refl configs) hc hkey
      fun name hname => (hfound c hc name hname).imp fun f hf => hf.1
  refine ⟨fun config hconfig => ?_, fun config hconfig c hc hne key hkey hcreates => ?_⟩
  · exact (hbuilt.invariant hnamed hinj (List.Perm.refl configs)).hasKey config
      (horder.mem_iff.2 hconfig)
  · have hcreates' := hcreates
    rcases hcreates with hckey | ⟨hdeps, -⟩
    · -- one of two configs with the same key is built after the other
      obtain ⟨before, behind, heq, hisNew⟩ := hnew config hconfig key hkey
      obtain ⟨before', behind', heq', hisNew'⟩ := hnew c hc key hckey
      rw [heq] at heq'
      rcases List.append_eq_append_iff.1 heq' with ⟨l, rfl, hl⟩ | ⟨l, rfl, hl⟩
      · rcases List.cons_eq_append_iff.1 hl with ⟨rfl, hl⟩ | ⟨l, rfl, -⟩
        · exact hne (List.cons.inj hl).1.symm
        · exact hisNew' config (by simp) (.inl hkey)
      · rcases List.cons_eq_append_iff.1 hl with ⟨rfl, hl⟩ | ⟨l, rfl, -⟩
        · exact hne (List.cons.inj hl).1
        · exact hisNew c (by simp) (.inl hckey)
    · -- the other config can be the first one
      have hperm : (c :: configs.erase c).Perm configs := (List.perm_cons_erase hc).symm
      obtain ⟨features, rest, hrun, hfound⟩ := hresolves (c :: configs.erase c) hperm
      obtain ⟨behind, st, hbuilt, rfl⟩ := built_cons_of_constructFeaturesFromConfigs hdeps hrun
      obtain ⟨before, behind', heq, hisNew⟩ := hbuilt.exists_isNew hnamed hinj hperm hconfig hkey
        fun name hname => (hfound config hconfig name hname).imp fun f hf => hf.1
      rcases List.cons_eq_append_iff.1 heq with ⟨rfl, heq⟩ | ⟨before, rfl, -⟩
      · exact hne (List.cons.inj heq).1
      · exact hisNew c List.mem_cons_self hcreates'

omit hnamed hinj in
/-- **Named configs resolve in every order** exactly if they are built apart. -/
theorem resolvesInAnyOrder_iff (hinj : Function.Injective defs.hash)
    (hnamed : NamedConfigs defs configs) :
    ResolvesInAnyOrder defs configs ↔ BuiltApart defs configs :=
  ⟨fun h => h.builtApart hnamed hinj, fun h => h.resolves hnamed hinj⟩

end Runs

/-! ### Configs of a ticker -/

/-- The data source of the mid price, under a name of its own. -/
def tickerConfig : FeatureConfig ℕ := ⟨"TickerData", 0, some "ticker", none⟩

/-- The feature of the mid price. -/
def midFeature : NamedFeature String ℕ :=
  .node ⟨"MidPriceFD", 0, some "mid", false⟩ [.node ⟨"TickerData", 0, none, false⟩ []]

theorem ne_unaryHash {name : String} (hname : name.toList.any (· ≠ 'x'))
    (values : List (HashValue ℕ)) : some name ≠ some (unaryHash values) := by
  rintro ⟨⟩
  obtain ⟨c, hc, hne⟩ := List.any_eq_true.1 hname
  rw [unaryHash, String.toList_ofList] at hc
  exact of_decide_eq_true hne (List.eq_of_mem_replicate hc)

theorem namedConfigs_ticker :
    NamedConfigs (tickerDefinitions unaryHash) [tickerConfig, midConfig] where
  names_nodup := by decide
  named := by decide
  not_key := by
    intro config hconfig c hc key hcreates
    obtain ⟨values, rfl⟩ := hcreates.exists_hash
    rcases List.mem_pair.1 hconfig with rfl | rfl
    · exact ne_unaryHash (by decide) values
    · exact ne_unaryHash (by decide) values
  acyclic := by
    refine ⟨fun _ => 0, fun config hconfig deps hdeps => ?_⟩
    rcases List.mem_pair.1 hconfig with rfl | rfl <;> cases hdeps

/-- A data source under a name of its own is lost if a feature that needs it is built before. -/
theorem not_resolvesInAnyOrder_ticker :
    NamedConfigs (tickerDefinitions unaryHash) [tickerConfig, midConfig] ∧
      ¬ ResolvesInAnyOrder (tickerDefinitions unaryHash) [tickerConfig, midConfig] := by
  refine ⟨namedConfigs_ticker, fun hresolves => ?_⟩
  have hapart := hresolves.builtApart namedConfigs_ticker unaryHash_injective
  have hticker : HasKey (tickerDefinitions unaryHash) [tickerConfig, midConfig] tickerConfig
      ((tickerDefinitions unaryHash).key (.node ⟨"TickerData", 0, some "ticker", false⟩ [])) :=
    .derived rfl rfl
  refine hapart.2 tickerConfig (by simp) midConfig (by simp) (by decide) _ hticker
    (.inr ⟨rfl, midFeature, rfl, ?_⟩)
  refine Definitions.mem_subKeys_iff.2 (.inr ⟨_, List.mem_singleton_self _, ?_⟩)
  exact Definitions.mem_subKeys_iff.2 (.inl rfl)

/-- The mid price and a feature of it are found in both orders. -/
theorem resolvesInAnyOrder_iff_midDiff :
    ResolvesInAnyOrder (tickerDefinitions unaryHash) [midConfig, diffConfig] := by
  have hnamed : NamedConfigs (tickerDefinitions unaryHash) [midConfig, diffConfig] := by
    refine ⟨by decide, by decide, fun config hconfig c hc key hcreates => ?_, fun config =>
      if config.name = some "diff" then 1 else 0, fun config hconfig deps hdeps dep hdep => ?_⟩
    · obtain ⟨values, rfl⟩ := hcreates.exists_hash
      rcases List.mem_pair.1 hconfig with rfl | rfl
      · exact ne_unaryHash (by decide) values
      · exact ne_unaryHash (by decide) values
    · rcases List.mem_pair.1 hconfig with rfl | rfl
      · cases hdeps
      · obtain rfl := Option.some.inj hdeps
        obtain rfl := List.mem_singleton.1 hdep
        exact ⟨midConfig, by simp, .inl rfl, by decide⟩
  have hne : ∀ (fields fields' : FeatureFields String ℕ) (keys keys' : List String),
      fields.dataDefinition ≠ fields'.dataDefinition →
        unaryHash (hashInput id fields keys) ≠ unaryHash (hashInput id fields' keys') :=
    fun fields fields' keys keys' hne h =>
      hne (hashInput_eq_iff.1 (unaryHash_injective h)).1.2.1
  have hmid : HasKey (tickerDefinitions unaryHash) [midConfig, diffConfig] midConfig
      ((tickerDefinitions unaryHash).key midFeature) := .derived rfl rfl
  have hdiff := HasKey.generic (fun _ => (tickerDefinitions unaryHash).key midFeature)
    (show diffConfig.deps = some ["mid"] from rfl)
    (show (tickerDefinitions unaryHash).load diffConfig.featureDefinition = .ok "DiffFD" from rfl)
    (fun dep hdep c (hc : c ∈ [midConfig, diffConfig]) hcname => by
      obtain rfl := List.mem_singleton.1 hdep
      obtain rfl : c = midConfig := hnamed.eq_of_name hc List.mem_cons_self hcname
      exact hmid)
    (fun dep hdep hno => by
      obtain rfl := List.mem_singleton.1 hdep
      exact absurd rfl (hno midConfig List.mem_cons_self))
  refine (resolvesInAnyOrder_iff unaryHash_injective hnamed).2 ⟨fun config hconfig => ?_,
    fun config hconfig c hc hcne key hkey hcreates => ?_⟩
  · rcases List.mem_pair.1 hconfig with rfl | rfl
    · exact ⟨_, hmid⟩
    · exact ⟨_, hdiff⟩
  · rcases List.mem_pair.1 hconfig with rfl | rfl <;> rcases List.mem_pair.1 hc with rfl | rfl
    · exact hcne rfl
    · obtain rfl := hkey.unique hmid
      rcases hcreates with h | ⟨h, -⟩
      · exact hne _ _ _ _ (by decide) (hdiff.unique h)
      · cases h
    · obtain rfl := hkey.unique hdiff
      rcases hcreates with h | ⟨-, f, hf, hmem⟩
      · exact hne _ _ _ _ (by decide) (h.unique hmid)
      · obtain rfl : midFeature = f := Except.ok.inj hf
        rcases Definitions.mem_subKeys_iff.1 hmem with h | ⟨c, hc, hmem⟩
        · exact hne _ _ _ _ (by decide) h
        · obtain rfl := List.mem_singleton.1 hc
          rcases Definitions.mem_subKeys_iff.1 hmem with h | ⟨c, hc, -⟩
          · exact hne _ _ _ _ (by decide) h
          · cases hc
    · exact hcne rfl

end Svoe
