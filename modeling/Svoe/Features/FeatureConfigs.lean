import Svoe.Common.Frame
import Svoe.Features.FeatureKey

/-!
# Features from their configs

`construct_features_from_configs` scans the list of configs, builds those whose dependencies have
been built, and removes each from the list that it is scanning.

* `Built` : what has been built, with the order in which it was.
* `built_of_constructFeaturesFromConfigs` : a run that returns has built all configs.
* `keepsPositions_iff` : positions are kept of the empty list only.
-/

namespace Svoe

/-- An exception of the construction. -/
inductive ConstructError where
  /-- `ValueError(msg)`. -/
  | value (msg : String)
  /-- `KeyError: key`. -/
  | key (key : String)
  /-- `IndexError`. -/
  | index
  /-- `RecursionError`. -/
  | recursion
  deriving DecidableEq, Repr

/-- `Optional[Union[Dict, List]]`: the params of the nodes of a tree, by position. -/
inductive NodeParams (π : Type) where
  | none
  | dict (d : List (ℕ × π))
  | list (l : List π)
  /-- A value of another type, by the name of its type. -/
  | other (type : String)

/-- `FeatureConfig`. -/
structure FeatureConfig (π : Type) where
  featureDefinition : String
  params : π
  name : Option String := none
  deps : Option (List String) := none
  deriving DecidableEq

/-- What the construction uses of the data definitions, of dictionaries and of `joblib`. -/
structure Definitions (δ π : Type) where
  /-- `DefinitionsLoader.load`. -/
  load : String → Except ConstructError δ
  /-- `__name__`. -/
  className : δ → String
  isDataSource : δ → Bool
  depUpstreamDefinitions : δ → Option String → Except ConstructError (List δ)
  /-- `joblib.hash`. -/
  hash : List (HashValue π) → String
  /-- `{}`. -/
  emptyParams : π
  /-- `params['data_source']`, if there is such a key. -/
  dataSourceParams : π → Option (NodeParams π)
  /-- `params.get('feature', None)`. -/
  featureParams : π → NodeParams π
  /-- `params.get('dep_schema', None)`. -/
  depSchema : π → Option String
  /-- How deep calls of `_construct_feature_tree` can be nested. -/
  recursionLimit : ℕ

/-- `feature_position_ref` and `data_source_position_ref`. -/
structure Positions where
  feature : ℕ
  dataSource : ℕ

variable {δ π : Type}

namespace Definitions

variable (defs : Definitions δ π)

/-- `feature.key`. -/
def key : NamedFeature δ π → String := calculateKey defs.className defs.hash

/-- `_parse_params`. -/
def parseParams (params : NodeParams π) (position : ℕ) : Except ConstructError π :=
  match params with
  | .none => .ok defs.emptyParams
  | .dict d => .ok (((d.find? fun p => p.1 = position).map Prod.snd).getD defs.emptyParams)
  | .list l =>
    if position ≤ l.length then
      match l[position]? with
      | some params => .ok params
      | none => .error .index
    else
      .error (.value s!"Position {position} is larger then params len: {l.length}")
  | .other type => .error (.value s!"Unsupported params type: {type}")

/-- The first existing feature that is equal to a feature, or the feature itself. -/
def reuse (existingFeatures : List (NamedFeature δ π)) (f : NamedFeature δ π) : NamedFeature δ π :=
  (existingFeatures.find? fun existing => defs.key existing = defs.key f).getD f

/-- The loop over the dependencies of `_construct_feature_tree`. -/
def constructChildren
    (construct : δ → Positions → Except ConstructError (NamedFeature δ π × Positions)) :
    List δ → Positions → Except ConstructError (List (NamedFeature δ π) × Positions)
  | [], position => .ok ([], position)
  | depFd :: deps, position => do
    let position :=
      if defs.isDataSource depFd then position
      else { position with feature := position.feature + 1 }
    let (child, position) ← construct depFd position
    let (children, position) ← constructChildren construct deps position
    .ok (child :: children, position)

/-- `_construct_feature_tree`.  The last decrement of the feature position, by the root, is not
looked at. -/
def constructFeatureTree (dataSourceParams featureParams : NodeParams π)
    (existingFeatures : List (NamedFeature δ π)) :
    ℕ → Option String → δ → Positions → Except ConstructError (NamedFeature δ π × Positions)
  | 0, _, _, _ => .error .recursion
  | n + 1, name, rootDef, position =>
    if defs.isDataSource rootDef then do
      let params ← defs.parseParams dataSourceParams position.dataSource
      let f : NamedFeature δ π := .node ⟨rootDef, params, name, false⟩ []
      .ok (defs.reuse existingFeatures f, { position with dataSource := position.dataSource + 1 })
    else do
      let params ← defs.parseParams featureParams position.feature
      let deps ← defs.depUpstreamDefinitions rootDef (defs.depSchema params)
      let (children, position) ← defs.constructChildren
        (constructFeatureTree dataSourceParams featureParams existingFeatures n none) deps position
      let f : NamedFeature δ π := .node ⟨rootDef, params, name, false⟩ children
      .ok (defs.reuse existingFeatures f, { position with feature := position.feature - 1 })

/-- `get_feature_by_key_or_name`. -/
def getFeatureByKeyOrName (features : List (NamedFeature δ π)) (keyOrName : String) :
    Option (NamedFeature δ π) :=
  features.find? fun feature => defs.key feature = keyOrName ∨ feature.value.name = some keyOrName

/-- The dependencies of a feature, by their keys or names. -/
def depFeatures (existingFeatures : List (NamedFeature δ π)) :
    List String → Except ConstructError (List (NamedFeature δ π))
  | [] => .ok []
  | depKeyOrName :: deps =>
    match defs.getFeatureByKeyOrName existingFeatures depKeyOrName with
    | none => .error (.value s!"Can not find feature for key_or_name: {depKeyOrName}")
    | some depFeature => do
      let rest ← depFeatures existingFeatures deps
      .ok (depFeature :: rest)

/-- `construct_feature`. -/
def constructFeature (config : FeatureConfig π) (existingFeatures : List (NamedFeature δ π)) :
    Except ConstructError (NamedFeature δ π) := do
  let rootDef ← defs.load config.featureDefinition
  match config.deps with
  | some deps => do
    -- generic feature
    let children ← defs.depFeatures existingFeatures deps
    .ok (defs.reuse existingFeatures (.node ⟨rootDef, config.params, config.name, false⟩ children))
  | none =>
    match defs.dataSourceParams config.params with
    | none => .error (.key "data_source")
    | some dataSourceParams => do
      let (f, _) ← defs.constructFeatureTree dataSourceParams (defs.featureParams config.params)
        existingFeatures defs.recursionLimit config.name rootDef ⟨0, 0⟩
      .ok f

/-- `get_dep_features_inorder`. -/
def getDepFeaturesInorder (f : NamedFeature δ π) : List (NamedFeature δ π) :=
  f.inorder.filter fun node => !defs.isDataSource node.value.dataDefinition

/-- `get_data_sources`. -/
def getDataSources (f : NamedFeature δ π) : List (NamedFeature δ π) :=
  f.postorder.filter fun node => defs.isDataSource node.value.dataDefinition

/-- Append a feature to the existing ones if there is none that is equal to it. -/
def addIfMissing (existingFeatures : List (NamedFeature δ π)) (f : NamedFeature δ π) :
    List (NamedFeature δ π) :=
  if existingFeatures.any fun existing => defs.key existing = defs.key f then existingFeatures
  else existingFeatures ++ [f]

/-- The existing features with a new feature and all its dependencies. -/
def updateExisting (existingFeatures : List (NamedFeature δ π)) (f : NamedFeature δ π) :
    List (NamedFeature δ π) :=
  (defs.getDataSources f).foldl defs.addIfMissing
    ((defs.getDepFeaturesInorder f).foldl defs.addIfMissing (existingFeatures ++ [f]))

end Definitions

/-- The lists that `construct_features_from_configs` works on. -/
structure Construction (δ π : Type) where
  features : List (NamedFeature δ π)
  existingFeatures : List (NamedFeature δ π)
  configs : List (FeatureConfig π)

namespace Definitions

variable [DecidableEq π] (defs : Definitions δ π)

/-- A feature was built from a config: the config is removed. -/
def build (st : Construction δ π) (config : FeatureConfig π) (f : NamedFeature δ π) :
    Construction δ π where
  features := st.features ++ [f]
  existingFeatures := defs.updateExisting st.existingFeatures f
  configs := st.configs.erase config

/-- All dependencies of a config have been built. -/
def hasAllDeps (existingFeatures : List (NamedFeature δ π)) (deps : List String) : Bool :=
  deps.all fun keyOrName => (defs.getFeatureByKeyOrName existingFeatures keyOrName).isSome

/-- The `for` loop over the configs, from position `i` on.  It shortens the list it goes through. -/
def scan : ℕ → ℕ → Construction δ π → Except ConstructError (Construction δ π)
  | 0, _, st => .ok st
  | n + 1, i, st =>
    match st.configs[i]? with
    | none => .ok st
    | some config =>
      match config.deps with
      | none => do
        let feature ← defs.constructFeature config st.existingFeatures
        -- break
        .ok (defs.build st config feature)
      | some deps =>
        if defs.hasAllDeps st.existingFeatures deps then do
          let feature ← defs.constructFeature config st.existingFeatures
          scan n (i + 1) (defs.build st config feature)
        else scan n (i + 1) st

/-- The `while` loop.  Every round removes a config. -/
def whileConfigs : ℕ → Construction δ π → Except ConstructError (Construction δ π)
  | 0, st => .ok st
  | n + 1, st =>
    if st.configs = [] then .ok st
    else do
      let st' ← defs.scan st.configs.length 0 st
      if st'.configs.length = st.configs.length then
        .error (.value
          "Can not construct features for given config, make sure all features have proper dependencies")
      else whileConfigs n st'

/-- `construct_features_from_configs`: the features, and what it leaves of the list of configs. -/
def constructFeaturesFromConfigs (featureConfigs : List (FeatureConfig π)) :
    Except ConstructError (List (NamedFeature δ π) × List (FeatureConfig π)) := do
  let st ← defs.whileConfigs featureConfigs.length ⟨[], [], featureConfigs⟩
  .ok (st.features, st.configs)

end Definitions

/-! ### The order of construction -/

variable [DecidableEq π] {defs : Definitions δ π} {configs configs' order : List (FeatureConfig π)}
  {config : FeatureConfig π} {st st' : Construction δ π} {f : NamedFeature δ π} {n i : ℕ}

/-- What is built of the configs in some order. -/
inductive Built (defs : Definitions δ π) (configs : List (FeatureConfig π)) :
    List (FeatureConfig π) → Construction δ π → Prop where
  | nil : Built defs configs [] ⟨[], [], configs⟩
  | snoc {order : List (FeatureConfig π)} {st : Construction δ π} {config : FeatureConfig π}
    {f : NamedFeature δ π} (h : Built defs configs order st) (hmem : config ∈ st.configs)
    (hf : defs.constructFeature config st.existingFeatures = .ok f) :
    Built defs configs (order ++ [config]) (defs.build st config f)

theorem Built.perm (h : Built defs configs order st) : (order ++ st.configs).Perm configs := by
  induction h with
  | nil => exact List.Perm.refl _
  | @snoc order st config f h hmem hf ih =>
    refine List.Perm.trans ?_ ih
    rw [List.append_assoc, List.singleton_append]
    exact (List.perm_cons_erase hmem).symm.append_left order

/-- **A scan** goes on building. -/
theorem Built.scan (h : Built defs configs order st) (hscan : defs.scan n i st = .ok st') :
    ∃ behind, Built defs configs (order ++ behind) st' := by
  induction n generalizing i order st with
  | zero =>
    obtain rfl := Except.ok.inj hscan
    exact ⟨[], by rwa [List.append_nil]⟩
  | succ n ih =>
    unfold Definitions.scan at hscan
    cases hconfig : st.configs[i]? with
    | none =>
      rw [hconfig] at hscan
      obtain rfl := Except.ok.inj hscan
      exact ⟨[], by rwa [List.append_nil]⟩
    | some config =>
      have hmem := List.mem_of_getElem? hconfig
      rw [hconfig] at hscan
      dsimp only at hscan
      cases hdeps : config.deps with
      | none =>
        rw [hdeps] at hscan
        obtain ⟨f, hf, hscan⟩ := bind_eq_ok_iff.1 hscan
        obtain rfl := Except.ok.inj hscan
        exact ⟨[config], h.snoc hmem hf⟩
      | some deps =>
        rw [hdeps] at hscan
        dsimp only at hscan
        split_ifs at hscan
        · obtain ⟨f, hf, hscan⟩ := bind_eq_ok_iff.1 hscan
          obtain ⟨behind, hbuilt⟩ := ih (h.snoc hmem hf) hscan
          exact ⟨config :: behind, by rwa [List.append_assoc] at hbuilt⟩
        · exact ih h hscan

/-- Every round of the `while` loop goes on building, until nothing is left. -/
theorem Built.whileConfigs (h : Built defs configs order st) (hn : st.configs.length ≤ n)
    (hwhile : defs.whileConfigs n st = .ok st') :
    st'.configs = [] ∧ ∃ behind, Built defs configs (order ++ behind) st' := by
  induction n generalizing order st with
  | zero =>
    obtain rfl := Except.ok.inj hwhile
    exact ⟨List.eq_nil_of_length_eq_zero (Nat.le_zero.1 hn), [], by rwa [List.append_nil]⟩
  | succ n ih =>
    unfold Definitions.whileConfigs at hwhile
    split_ifs at hwhile with hnil
    · obtain rfl := Except.ok.inj hwhile
      exact ⟨hnil, [], by rwa [List.append_nil]⟩
    · obtain ⟨t, ht, hwhile⟩ := bind_eq_ok_iff.1 hwhile
      split_ifs at hwhile with hlength
      obtain ⟨behind, hbuilt⟩ := h.scan ht
      have hle : t.configs.length ≤ st.configs.length := by
        have hst := h.perm.length_eq
        have ht := hbuilt.perm.length_eq
        simp only [List.length_append] at hst ht
        omega
      obtain ⟨hnil', behind', hbuilt'⟩ := ih hbuilt (by omega) hwhile
      exact ⟨hnil', behind ++ behind', by rwa [List.append_assoc] at hbuilt'⟩

/-- **All configs are built**, in some order, and removed. -/
theorem built_of_constructFeaturesFromConfigs {features : List (NamedFeature δ π)}
    {rest : List (FeatureConfig π)}
    (h : defs.constructFeaturesFromConfigs configs = .ok (features, rest)) :
    rest = [] ∧ ∃ order st, Built defs configs order st ∧ order.Perm configs ∧
      st.features = features := by
  obtain ⟨st, hst, h⟩ := bind_eq_ok_iff.1 h
  obtain ⟨rfl, rfl⟩ := Prod.mk.inj (Except.ok.inj h)
  obtain ⟨hnil, order, hbuilt⟩ := Built.nil.whileConfigs le_rfl hst
  refine ⟨hnil, order, st, hbuilt, ?_, rfl⟩
  have hperm := hbuilt.perm
  rwa [hnil, List.append_nil] at hperm

/-- A derived feature whose config is the first one is built first. -/
theorem built_cons_of_constructFeaturesFromConfigs {features : List (NamedFeature δ π)}
    {rest : List (FeatureConfig π)} (hdeps : config.deps = none)
    (h : defs.constructFeaturesFromConfigs (config :: configs) = .ok (features, rest)) :
    ∃ behind st, Built defs (config :: configs) (config :: behind) st ∧ st.features = features := by
  obtain ⟨st, hst, h⟩ := bind_eq_ok_iff.1 h
  obtain ⟨rfl, -⟩ := Prod.mk.inj (Except.ok.inj h)
  rw [List.length_cons] at hst
  unfold Definitions.whileConfigs at hst
  rw [if_neg (List.cons_ne_nil config configs)] at hst
  obtain ⟨t, ht, hst⟩ := bind_eq_ok_iff.1 hst
  rw [List.length_cons] at ht
  unfold Definitions.scan at ht
  rw [List.getElem?_cons_zero] at ht
  dsimp only at ht
  rw [hdeps] at ht
  obtain ⟨f, hf, ht⟩ := bind_eq_ok_iff.1 ht
  obtain rfl := Except.ok.inj ht
  split_ifs at hst
  have hbuilt : Built defs (config :: configs) [config]
      (defs.build ⟨[], [], config :: configs⟩ config f) :=
    Built.nil.snoc List.mem_cons_self hf
  obtain ⟨-, behind, hbuilt⟩ := hbuilt.whileConfigs (by simp [Definitions.build]) hst
  exact ⟨behind, st, hbuilt, rfl⟩

/-! ### Positions -/

omit [DecidableEq π] in
variable (defs configs) in
/-- The key of the feature that a config describes.  A dependency is the name of a config, or else a
key. -/
inductive HasKey : FeatureConfig π → String → Prop where
  | derived {config : FeatureConfig π} {f : NamedFeature δ π} (hdeps : config.deps = none)
    (hf : defs.constructFeature config [] = .ok f) : HasKey config (defs.key f)
  | generic {config : FeatureConfig π} {deps : List String} {rootDef : δ} (keyOf : String → String)
    (hdeps : config.deps = some deps) (hload : defs.load config.featureDefinition = .ok rootDef)
    (hname : ∀ dep ∈ deps, ∀ c ∈ configs, c.name = some dep → HasKey c (keyOf dep))
    (hkey : ∀ dep ∈ deps, (∀ c ∈ configs, c.name ≠ some dep) → keyOf dep = dep) :
    HasKey config (defs.hash (hashInput defs.className
      ⟨rootDef, config.params, config.name, false⟩ (deps.map keyOf)))

/-- The features come at the positions of their configs, and the list of configs is left as it
was. -/
def KeepsPositions (defs : Definitions δ π) (configs : List (FeatureConfig π)) : Prop :=
  ∃ features, defs.constructFeaturesFromConfigs configs = .ok (features, configs) ∧
    List.Forall₂ (fun config f => HasKey defs configs config (defs.key f)) configs features

/-- **Positions are kept of no configs only**: whatever is built has been removed from the list. -/
theorem keepsPositions_iff : KeepsPositions defs configs ↔ configs = [] := by
  constructor
  · rintro ⟨features, h, -⟩
    exact (built_of_constructFeaturesFromConfigs h).1
  · rintro rfl
    exact ⟨[], rfl, List.Forall₂.nil⟩

/-! ### Two configs -/

/-- A mid price of a ticker, and definitions without dependencies of their own. -/
def tickerDefinitions (hash : List (HashValue ℕ) → String) : Definitions String ℕ where
  load := .ok
  className := id
  isDataSource rootDef := rootDef = "TickerData"
  depUpstreamDefinitions rootDef _ := .ok (if rootDef = "MidPriceFD" then ["TickerData"] else [])
  hash := hash
  emptyParams := 0
  dataSourceParams _ := some (.list [0])
  featureParams _ := .none
  depSchema _ := none
  recursionLimit := 1000

/-- The hashed values one after the other. -/
def textHash (values : List (HashValue ℕ)) : String :=
  values.foldl (fun text value => text ++ match value with
    | .bool b => s!"{b} "
    | .str s => s!"({s}) "
    | .dict d => s!"{d} ") ""

/-- The mid price. -/
def midConfig : FeatureConfig ℕ := ⟨"MidPriceFD", 0, some "mid", none⟩

/-- A feature of the mid price. -/
def diffConfig : FeatureConfig ℕ := ⟨"DiffFD", 0, some "diff", some ["mid"]⟩

/-- A config before the one it depends on: the features come the other way round, and nothing is
left of the list. -/
theorem not_keepsPositions_dependentFirst :
    ¬ KeepsPositions (tickerDefinitions textHash) [diffConfig, midConfig] ∧
      ((tickerDefinitions textHash).constructFeaturesFromConfigs [diffConfig, midConfig]).map
          (fun (features, rest) => (features.map fun f => f.value.name, rest)) =
        .ok ([some "mid", some "diff"], []) := by
  have hrun : ((tickerDefinitions textHash).constructFeaturesFromConfigs
      [diffConfig, midConfig]).map
        (fun (features, rest) => (features.map fun f => f.value.name, rest)) =
      .ok ([some "mid", some "diff"], []) := by
    decide +kernel
  refine ⟨?_, hrun⟩
  rintro ⟨features, h, -⟩
  rw [h] at hrun
  have hrest : [diffConfig, midConfig] = [] := (Prod.mk.inj (Except.ok.inj hrun)).2
  cases hrest

end Svoe
