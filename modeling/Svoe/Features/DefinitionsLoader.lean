import Svoe.Common.Dict
import Svoe.Common.Frame
import Svoe.Transition.Basic

/-!
# Loading definitions

`_load_many` submits a download for every definition that is not available locally.  The closure it
submits reads `group`, `definition`, `version` and `extract_path` when a worker thread runs it, and
until then the loop may have stored them for another name.

The thread of `_load_many` makes a step at every store of these variables, a worker at every read.
Which name a variable was stored for is kept beside its value.

* `LoaderInv.mainStep`, `LoaderInv.workerStep` : one step of the loop, and of a worker.
* `fetchesOwn_of_readsOwn` : if every variable is read while it is stored for the own name, every
  download is that of its name.
-/

namespace Svoe

namespace DefinitionsLoader

/-! ### Names -/

/-- `_parse_definition_name`. -/
def parseDefinitionName (fdName : String) : Except PyError (String × String × String) :=
  match (fdName.toList.splitOn '.').map String.ofList with
  | group :: definition :: _ => .ok (group, definition, "1")
  | _ => .error .index

/-- `DEFINITIONS_PATH`. -/
def definitionsPath : String := "/tmp/svoe_feature_definitions"

/-- The `extract_path` of a definition. -/
def extractPath (group definition : String) : String :=
  definitionsPath ++ "/" ++ group ++ "/" ++ definition

/-- `load_feature_definition`'s arguments. -/
structure Request where
  group : String
  definition : String
  version : String
  extractPath : Option String
  deriving DecidableEq, Repr

/-- The arguments for a name. -/
def ownRequest (fdName : String) : Except PyError Request :=
  (parseDefinitionName fdName).map fun (group, definition, version) =>
    ⟨group, definition, version, some (extractPath group definition)⟩

/-! ### The loader -/

/-- A variable that the closures share.  `storedFor` is the name whose round of the first loop has
stored it; the second loop stores `extract_path` for no name. -/
structure Cell (α : Type*) where
  value : α
  storedFor : Option String := none
  deriving DecidableEq

/-- A download. -/
inductive Download where
  /-- Submitted, and its next read is that of `group`, `definition`, … -/
  | queued
  | readGroup (group : String)
  | readDefinition (group definition : String)
  | readVersion (group definition version : String)
  | requested (request : Request)
  /-- The future has a result, or an exception. -/
  | done (request : Request) (result : Option String)
  | failed (request : Request)
  /-- The future of an earlier call. -/
  | earlier (result : Option String)
  deriving DecidableEq

/-- How a download ends. -/
inductive Outcome where
  | raises
  | notFound
  | extracts
  deriving DecidableEq

/-- The exceptions of `_load_many`: its own, and those of a download. -/
inductive LoadError where
  | own (e : PyError)
  | download
  deriving DecidableEq

/-- What a round of the first loop has stored. -/
inductive Stage where
  | nothing
  | group
  | definition
  | version
  | extractPath
  deriving DecidableEq

/-- Where `_load_many` is: in the first loop, in the second one (having stored a result or not), or
finished. -/
inductive LoadPc (γ : Type*) where
  | submitting (fdNames : List String) (stage : Stage)
  | collecting (fdNames : List String) (stored : Bool)
  | returned (classes : List γ)
  | raised (e : LoadError)
  deriving DecidableEq

/-- The loader in a call of `_load_many`.  `downloads` are the definitions extracted so far. -/
structure Loader (γ : Type*) where
  group : Cell String := ⟨"", none⟩
  definition : Cell String := ⟨"", none⟩
  version : Cell String := ⟨"", none⟩
  extractPath : Cell (Option String) := ⟨none, none⟩
  futures : List (String × Download)
  fdNameToClass : List (String × γ) := []
  downloads : List Request := []
  pc : LoadPc γ

/-- The start of a call, with the results of earlier ones. -/
def Loader.start {γ : Type*} (fdNames : List String) (earlier : List (String × Option String)) :
    Loader γ where
  futures := earlier.map fun p => (p.1, .earlier p.2)
  pc := .submitting fdNames .nothing

section Model

variable {γ : Type*}

/-- `future.result()`, once there is one. -/
def Download.result : Download → Option (Except LoadError (Option String))
  | done _ result | earlier result => some (.ok result)
  | failed _ => some (.error .download)
  | queued | readGroup _ | readDefinition _ _ | readVersion _ _ _ | requested _ => none

/-- A step of the first loop in the round of a name.  `loadLocalClass` is what `_load_local_class`
finds behind the downloads so far. -/
def submitStep (loadLocalClass : List Request → String → Option γ) (s : Loader γ)
    (fdName : String) (rest : List String) (stage : Stage) : Loader γ :=
  match parseDefinitionName fdName with
  | .error e => { s with pc := .raised (.own e) }
  | .ok (group, definition, version) =>
    match stage with
    | .nothing =>
      match loadLocalClass s.downloads fdName with
      | some clazz =>
        { s with
          fdNameToClass := dictSet s.fdNameToClass fdName clazz
          pc := .submitting rest .nothing }
      | none =>
        if (dictGet s.futures fdName).isSome then { s with pc := .submitting rest .nothing }
        else { s with group := ⟨group, some fdName⟩, pc := .submitting (fdName :: rest) .group }
    | .group =>
      { s with
        definition := ⟨definition, some fdName⟩
        pc := .submitting (fdName :: rest) .definition }
    | .definition =>
      { s with version := ⟨version, some fdName⟩, pc := .submitting (fdName :: rest) .version }
    | .version =>
      { s with
        extractPath := ⟨some (DefinitionsLoader.extractPath group definition), some fdName⟩
        pc := .submitting (fdName :: rest) .extractPath }
    | .extractPath =>
      { s with
        futures := dictSet s.futures fdName .queued
        pc := .submitting rest .nothing }

/-- A step of the second loop in the round of a name; it waits for the future's result. -/
def collectStep (loadLocalClass : List Request → String → Option γ) (s : Loader γ)
    (fdName : String) (rest : List String) : Bool → Option (Loader γ)
  | false =>
    match dictGet s.futures fdName with
    | none => some { s with pc := .collecting rest false }
    | some download => download.result.map fun
      | .error e => { s with pc := .raised e }
      | .ok result =>
        { s with extractPath := ⟨result, none⟩, pc := .collecting (fdName :: rest) true }
  | true =>
    if s.extractPath.value = none then
      some { s with pc := .raised (.own (.value ("Unable to load remote " ++ fdName))) }
    else
      match loadLocalClass s.downloads fdName with
      | none => some { s with
          pc := .raised (.own (.value ("Unable to locate remotely loaded " ++ fdName))) }
      | some clazz => some { s with
          fdNameToClass := dictSet s.fdNameToClass fdName clazz
          pc := .collecting rest false }

/-- The classes, in the order of the names. -/
def collectClasses (fdNameToClass : List (String × γ)) (fdNames : List String) :
    Except LoadError (List γ) :=
  fdNames.mapM fun fdName =>
    match dictGet fdNameToClass fdName with
    | some clazz => .ok clazz
    | none => .error (.own (.value (fdName ++ " were not processed")))

/-- A step of `_load_many`. -/
def mainStep (loadLocalClass : List Request → String → Option γ) (fdNames : List String)
    (s : Loader γ) : Option (Loader γ) :=
  match s.pc with
  | .submitting [] _ => some { s with pc := .collecting fdNames false }
  | .submitting (fdName :: rest) stage => some (submitStep loadLocalClass s fdName rest stage)
  | .collecting (fdName :: rest) stored => collectStep loadLocalClass s fdName rest stored
  | .collecting [] _ =>
    match collectClasses s.fdNameToClass fdNames with
    | .ok classes => some { s with pc := .returned classes }
    | .error e => some { s with pc := .raised e }
  | .returned _ | .raised _ => none

/-- A step of the worker that runs a download. -/
def Download.step (s : Loader γ) (outcome : Outcome) : Download → Option Download
  | queued => some (readGroup s.group.value)
  | readGroup group => some (readDefinition group s.definition.value)
  | readDefinition group definition => some (readVersion group definition s.version.value)
  | readVersion group definition version =>
    some (requested ⟨group, definition, version, s.extractPath.value⟩)
  | requested request =>
    match outcome with
    | .raises => some (failed request)
    | .notFound => some (done request none)
    | .extracts => some (done request request.extractPath)
  | done _ _ | failed _ | earlier _ => none

/-- What a step of a download extracts. -/
def Download.extracted (outcome : Outcome) : Download → List Request
  | requested request => if outcome = .extracts then [request] else []
  | _ => []

/-- The next step of `_load_many`, or of the worker that runs the download of a name. -/
inductive Action where
  | main
  | worker (fdName : String) (outcome : Outcome)
  deriving DecidableEq

/-- One step. -/
def step (loadLocalClass : List Request → String → Option γ) (fdNames : List String)
    (s : Loader γ) : Action → Option (Loader γ)
  | .main => mainStep loadLocalClass fdNames s
  | .worker fdName outcome =>
    (dictGet s.futures fdName).bind fun download =>
      (download.step s outcome).map fun next =>
        { s with
          futures := dictSet s.futures fdName next
          downloads := s.downloads ++ download.extracted outcome }

/-! ### Own requests -/

/-- The arguments a download has been started with. -/
def Download.request : Download → Option Request
  | requested request | done request _ | failed request => some request
  | queued | readGroup _ | readDefinition _ _ | readVersion _ _ _ | earlier _ => none

/-- Every download is that of its own name, and the classes of a finished call are those that were
found for the names, in their order. -/
structure FetchesOwn (loadLocalClass : List Request → String → Option γ) (fdNames : List String)
    (s : Loader γ) : Prop where
  own : ∀ fdName download, dictGet s.futures fdName = some download →
    ∀ request, download.request = some request → ownRequest fdName = .ok request
  inOrder : ∀ classes, s.pc = .returned classes → List.Forall₂ (fun fdName clazz =>
    ∃ downloads, downloads <+: s.downloads ∧ loadLocalClass downloads fdName = some clazz)
      fdNames classes

/-- The variable was stored last in the round of the name, or of one with the same value. -/
def Cell.IsFor {α : Type*} (cell : Cell α) (fdName : String) (f : Request → α) : Prop :=
  ∃ name, cell.storedFor = some name ∧ (ownRequest name).map f = (ownRequest fdName).map f

instance {α : Type*} [DecidableEq α] (cell : Cell α) (fdName : String) (f : Request → α) :
    Decidable (cell.IsFor fdName f) :=
  match h : cell.storedFor with
  | none => .isFalse fun ⟨_, hname, _⟩ => by simp [h] at hname
  | some name => decidable_of_iff ((ownRequest name).map f = (ownRequest fdName).map f)
      (by simp [Cell.IsFor, h])

/-- The variable that a download reads next is stored for its name. -/
def Download.NextIsOwn (s : Loader γ) (fdName : String) : Download → Prop
  | queued => s.group.IsFor fdName Request.group
  | readGroup _ => s.definition.IsFor fdName Request.definition
  | readDefinition _ _ => s.version.IsFor fdName Request.version
  | readVersion _ _ _ => s.extractPath.IsFor fdName Request.extractPath
  | requested _ | done _ _ | failed _ | earlier _ => True

instance (s : Loader γ) (fdName : String) :
    (download : Download) → Decidable (download.NextIsOwn s fdName)
  | .queued => inferInstanceAs (Decidable (s.group.IsFor ..))
  | .readGroup _ => inferInstanceAs (Decidable (s.definition.IsFor ..))
  | .readDefinition _ _ => inferInstanceAs (Decidable (s.version.IsFor ..))
  | .readVersion _ _ _ => inferInstanceAs (Decidable (s.extractPath.IsFor ..))
  | .requested _ | .done _ _ | .failed _ | .earlier _ => .isTrue trivial

/-- What a worker reads is stored for the name of its download. -/
def ReadsOwn (s : Loader γ) : Action → Prop
  | .main => True
  | .worker fdName _ => ∀ download ∈ dictGet s.futures fdName, download.NextIsOwn s fdName

instance (s : Loader γ) : (a : Action) → Decidable (ReadsOwn s a)
  | .main => .isTrue trivial
  | .worker fdName _ => inferInstanceAs (Decidable (∀ download ∈ dictGet s.futures fdName, _))

/-! ### The invariant -/

/-- The value of an argument for a name. -/
def OwnValue {α : Type*} (fdName : String) (f : Request → α) (value : α) : Prop :=
  (ownRequest fdName).map f = .ok value

/-- The cell has the value of the name it was stored for. -/
def Cell.Own {α : Type*} (cell : Cell α) (f : Request → α) : Prop :=
  ∀ fdName, cell.storedFor = some fdName → OwnValue fdName f cell.value

/-- What a download has read so far is its name's. -/
def Download.Own (fdName : String) : Download → Prop
  | queued | earlier _ => True
  | readGroup group => OwnValue fdName Request.group group
  | readDefinition group definition =>
    OwnValue fdName Request.group group ∧ OwnValue fdName Request.definition definition
  | readVersion group definition version =>
    OwnValue fdName Request.group group ∧ OwnValue fdName Request.definition definition ∧
      OwnValue fdName Request.version version
  | requested request | done request _ | failed request => ownRequest fdName = .ok request

/-- What every step that reads own values preserves. -/
structure LoaderInv (loadLocalClass : List Request → String → Option γ) (fdNames : List String)
    (s : Loader γ) : Prop where
  group : s.group.Own Request.group
  definition : s.definition.Own Request.definition
  version : s.version.Own Request.version
  extractPath : s.extractPath.Own Request.extractPath
  futures : ∀ fdName download, dictGet s.futures fdName = some download → download.Own fdName
  fdNameToClass : ∀ fdName clazz, dictGet s.fdNameToClass fdName = some clazz →
    ∃ downloads, downloads <+: s.downloads ∧ loadLocalClass downloads fdName = some clazz
  returned : ∀ classes, s.pc = .returned classes → List.Forall₂ (fun fdName clazz =>
    ∃ downloads, downloads <+: s.downloads ∧ loadLocalClass downloads fdName = some clazz)
      fdNames classes

variable {loadLocalClass : List Request → String → Option γ} {fdNames : List String}
  {s s' : Loader γ} {fdName : String} {download : Download} {outcome : Outcome}

theorem Cell.Own.ownValue {α : Type*} {cell : Cell α} {f : Request → α} (h : cell.Own f)
    (hfor : cell.IsFor fdName f) : OwnValue fdName f cell.value := by
  obtain ⟨name, hname, heq⟩ := hfor
  rw [OwnValue, ← heq]
  exact h name hname

/-- Four own values make the own request. -/
theorem ownRequest_of_ownValue {request : Request}
    (hgroup : OwnValue fdName Request.group request.group)
    (hdefinition : OwnValue fdName Request.definition request.definition)
    (hversion : OwnValue fdName Request.version request.version)
    (hpath : OwnValue fdName Request.extractPath request.extractPath) :
    ownRequest fdName = .ok request := by
  unfold OwnValue at hgroup hdefinition hversion hpath
  cases hown : ownRequest fdName with
  | error e => simp [hown, Except.map] at hgroup
  | ok own =>
    simp only [hown, Except.map, Except.ok.injEq] at hgroup hdefinition hversion hpath
    cases own
    cases request
    simp_all

/-- **A worker's step** keeps what its download has read own. -/
theorem Download.Own.step {next : Download} (h : download.Own fdName)
    (hinv : LoaderInv loadLocalClass fdNames s) (hget : dictGet s.futures fdName = some download)
    (hok : ReadsOwn s (.worker fdName outcome)) (hstep : download.step s outcome = some next) :
    next.Own fdName := by
  have hown := hok download hget
  cases download with
  | queued =>
    obtain rfl := Option.some.inj hstep
    exact hinv.group.ownValue hown
  | readGroup group =>
    obtain rfl := Option.some.inj hstep
    exact ⟨h, hinv.definition.ownValue hown⟩
  | readDefinition group definition =>
    obtain rfl := Option.some.inj hstep
    exact ⟨h.1, h.2, hinv.version.ownValue hown⟩
  | readVersion group definition version =>
    obtain rfl := Option.some.inj hstep
    exact ownRequest_of_ownValue h.1 h.2.1 h.2.2 (hinv.extractPath.ownValue hown)
  | requested request =>
    cases outcome <;> exact Option.some.inj hstep ▸ h
  | done | failed | earlier => cases hstep

theorem LoaderInv.workerStep (h : LoaderInv loadLocalClass fdNames s)
    (hok : ReadsOwn s (.worker fdName outcome))
    (hstep : step loadLocalClass fdNames s (.worker fdName outcome) = some s') :
    LoaderInv loadLocalClass fdNames s' := by
  obtain ⟨download, hget, hmap⟩ := Option.bind_eq_some_iff.1 hstep
  obtain ⟨next, hnext, rfl⟩ := Option.map_eq_some_iff.1 hmap
  have hprefix := List.prefix_append s.downloads (download.extracted outcome)
  refine ⟨h.group, h.definition, h.version, h.extractPath, fun name download' hdownload => ?_,
    fun name clazz hclazz => ?_, fun classes hpc => ?_⟩
  · rw [dictGet_dictSet] at hdownload
    split_ifs at hdownload with hname
    · rw [← Option.some.inj hdownload, ← hname]
      exact (h.futures fdName download hget).step h hget hok hnext
    · exact h.futures name download' hdownload
  · obtain ⟨downloads, hdownloads, hload⟩ := h.fdNameToClass name clazz hclazz
    exact ⟨downloads, hdownloads.trans hprefix, hload⟩
  · refine (h.returned classes hpc).imp fun name clazz => ?_
    rintro ⟨downloads, hdownloads, hload⟩
    exact ⟨downloads, hdownloads.trans hprefix, hload⟩

/-- Going on without a store. -/
theorem LoaderInv.setPc (h : LoaderInv loadLocalClass fdNames s) {pc : LoadPc γ}
    (hpc : ∀ classes, pc ≠ .returned classes) :
    LoaderInv loadLocalClass fdNames { s with pc := pc } :=
  ⟨h.group, h.definition, h.version, h.extractPath, h.futures, h.fdNameToClass,
    fun classes heq => absurd heq (hpc classes)⟩

/-- Going on with a class that was found for a name. -/
theorem LoaderInv.setClass (h : LoaderInv loadLocalClass fdNames s) {clazz : γ}
    (hload : loadLocalClass s.downloads fdName = some clazz) {pc : LoadPc γ}
    (hpc : ∀ classes, pc ≠ .returned classes) :
    LoaderInv loadLocalClass fdNames
      { s with fdNameToClass := dictSet s.fdNameToClass fdName clazz, pc := pc } := by
  refine ⟨h.group, h.definition, h.version, h.extractPath, h.futures, fun name clazz' hclazz => ?_,
    fun classes heq => absurd heq (hpc classes)⟩
  rw [dictGet_dictSet] at hclazz
  split_ifs at hclazz with hname
  · exact ⟨s.downloads, List.prefix_rfl, by rw [← hname, hload, hclazz]⟩
  · exact h.fdNameToClass name clazz' hclazz

theorem LoaderInv.submitStep (h : LoaderInv loadLocalClass fdNames s) (fdName : String)
    (rest : List String) (stage : Stage) :
    LoaderInv loadLocalClass fdNames (submitStep loadLocalClass s fdName rest stage) := by
  unfold DefinitionsLoader.submitStep
  cases hparse : parseDefinitionName fdName with
  | error e => exact h.setPc (by simp)
  | ok parts =>
    obtain ⟨group, definition, version⟩ := parts
    have hown : ownRequest fdName = .ok ⟨group, definition, version,
        some (DefinitionsLoader.extractPath group definition)⟩ := by rw [ownRequest, hparse]; rfl
    -- a cell that is stored in the round of the name
    have hcell : ∀ {α : Type} (f : Request → α) (value : α),
        f ⟨group, definition, version, some (DefinitionsLoader.extractPath group definition)⟩ =
          value → Cell.Own ⟨value, some fdName⟩ f := by
      rintro α f _ rfl name hname
      obtain rfl := Option.some.inj hname
      rw [OwnValue, hown]
      rfl
    have h' : ∀ rest stage,
        LoaderInv loadLocalClass fdNames { s with pc := .submitting rest stage } :=
      fun rest stage => h.setPc (by simp)
    cases stage with
    | nothing =>
      dsimp only
      cases hload : loadLocalClass s.downloads fdName with
      | some clazz => exact h.setClass hload (by simp)
      | none =>
        dsimp only
        split_ifs
        · exact h' ..
        · exact { h' (fdName :: rest) .group with group := hcell _ _ rfl }
    | group => exact { h' (fdName :: rest) .definition with definition := hcell _ _ rfl }
    | definition => exact { h' (fdName :: rest) .version with version := hcell _ _ rfl }
    | version => exact { h' (fdName :: rest) .extractPath with extractPath := hcell _ _ rfl }
    | extractPath =>
      refine { h' rest .nothing with futures := fun name download hget => ?_ }
      dsimp only at hget
      rw [dictGet_dictSet] at hget
      split_ifs at hget
      · exact Option.some.inj hget ▸ trivial
      · exact h.futures name download hget

theorem LoaderInv.collectStep (h : LoaderInv loadLocalClass fdNames s) {rest : List String}
    {stored : Bool} (hstep : collectStep loadLocalClass s fdName rest stored = some s') :
    LoaderInv loadLocalClass fdNames s' := by
  cases stored with
  | false =>
    unfold DefinitionsLoader.collectStep at hstep
    cases hget : dictGet s.futures fdName with
    | none =>
      simp only [hget, Option.some.injEq] at hstep
      exact hstep ▸ h.setPc (by simp)
    | some download =>
      simp only [hget, Option.map_eq_some_iff] at hstep
      obtain ⟨result, -, rfl⟩ := hstep
      cases result with
      | error e => exact h.setPc (by simp)
      | ok result =>
        have h' : LoaderInv loadLocalClass fdNames
            { s with pc := .collecting (fdName :: rest) true } := h.setPc (by simp)
        exact { h' with extractPath := fun name hname => by cases hname }
  | true =>
    unfold DefinitionsLoader.collectStep at hstep
    split_ifs at hstep
    · exact Option.some.inj hstep ▸ h.setPc (by simp)
    · cases hload : loadLocalClass s.downloads fdName with
      | none =>
        simp only [hload, Option.some.injEq] at hstep
        exact hstep ▸ h.setPc (by simp)
      | some clazz =>
        simp only [hload, Option.some.injEq] at hstep
        exact hstep ▸ h.setClass hload (by simp)

/-- **A step of the loop.** -/
theorem LoaderInv.mainStep (h : LoaderInv loadLocalClass fdNames s)
    (hstep : mainStep loadLocalClass fdNames s = some s') :
    LoaderInv loadLocalClass fdNames s' := by
  unfold DefinitionsLoader.mainStep at hstep
  cases hpc : s.pc with
  | submitting names stage =>
    cases names with
    | nil =>
      simp only [hpc, Option.some.injEq] at hstep
      exact hstep ▸ h.setPc (by simp)
    | cons fdName rest =>
      simp only [hpc, Option.some.injEq] at hstep
      exact hstep ▸ h.submitStep fdName rest stage
  | collecting names stored =>
    cases names with
    | nil =>
      simp only [hpc] at hstep
      cases hcollect : collectClasses s.fdNameToClass fdNames with
      | error e =>
        simp only [hcollect, Option.some.injEq] at hstep
        exact hstep ▸ h.setPc (by simp)
      | ok classes =>
        simp only [hcollect, Option.some.injEq] at hstep
        subst hstep
        refine ⟨h.group, h.definition, h.version, h.extractPath, h.futures, h.fdNameToClass,
          fun classes' heq => ?_⟩
        obtain rfl := LoadPc.returned.inj heq
        refine (mapM_eq_ok_iff.1 hcollect).imp fun name clazz hclazz => ?_
        cases hget : dictGet s.fdNameToClass name with
        | none => simp [hget] at hclazz
        | some clazz' =>
          simp only [hget, Except.ok.injEq] at hclazz
          exact hclazz ▸ h.fdNameToClass name clazz' hget
    | cons fdName rest =>
      simp only [hpc] at hstep
      exact h.collectStep hstep
  | returned => simp [hpc] at hstep
  | raised => simp [hpc] at hstep

/-! ### Runs -/

theorem loaderInv_start (loadLocalClass : List Request → String → Option γ) (fdNames : List String)
    (earlier : List (String × Option String)) :
    LoaderInv loadLocalClass fdNames (Loader.start fdNames earlier) := by
  refine ⟨by simp [Cell.Own, Loader.start], by simp [Cell.Own, Loader.start],
    by simp [Cell.Own, Loader.start], by simp [Cell.Own, Loader.start],
    fun name download hget => ?_, by simp [Loader.start, dictGet], by simp [Loader.start]⟩
  obtain ⟨p, hp, rfl⟩ := Option.map_eq_some_iff.1 hget
  obtain ⟨future, -, rfl⟩ := List.mem_map.1 (List.mem_of_find?_eq_some hp)
  trivial

theorem LoaderInv.fetchesOwn (h : LoaderInv loadLocalClass fdNames s) :
    FetchesOwn loadLocalClass fdNames s := by
  refine ⟨fun name download hget request hrequest => ?_, h.returned⟩
  have hown := h.futures name download hget
  cases download <;> cases hrequest <;> exact hown

/-- **Every download is that of its name** in a run in which every variable is read while it is
stored for that name. -/
theorem fetchesOwn_of_readsOwn (loadLocalClass : List Request → String → Option γ)
    (fdNames : List String) (earlier : List (String × Option String)) {actions : List Action}
    (hall : Transition.AllSteps (step loadLocalClass fdNames) ReadsOwn
      (Loader.start fdNames earlier) actions) :
    Transition.AllStates (step loadLocalClass fdNames) (FetchesOwn loadLocalClass fdNames)
      (Loader.start fdNames earlier) actions := by
  refine Transition.allStates_of_invariant (I := LoaderInv loadLocalClass fdNames)
    (fun s a s' hinv hok hstep => ?_) (fun s hinv => hinv.fetchesOwn)
    (loaderInv_start loadLocalClass fdNames earlier) hall
  cases a with
  | main => exact hinv.mainStep hstep
  | worker fdName outcome => exact hinv.workerStep hok hstep

end Model

/-- A class is there once its definition was extracted to its path. -/
def extractedClass (downloads : List Request) (fdName : String) : Option String :=
  if downloads.any fun request => ownRequest fdName = .ok request then some fdName else none

/-- Two missing definitions.  The worker of each has read the variables when the loop goes on; the
second one is extracted first. -/
def twoDownloads : List Action :=
  List.replicate 5 .main ++ List.replicate 4 (.worker "tvi.imb_fd" .extracts) ++
    List.replicate 5 .main ++ List.replicate 5 (.worker "price.mid_fd" .extracts) ++
    .worker "tvi.imb_fd" .extracts :: List.replicate 6 .main

theorem fetchesOwn_twoDownloads :
    ((Transition.run (step extractedClass ["tvi.imb_fd", "price.mid_fd"])
        (.start ["tvi.imb_fd", "price.mid_fd"] []) twoDownloads).map Loader.pc =
          some (.returned ["tvi.imb_fd", "price.mid_fd"])) ∧
      Transition.AllStates (step extractedClass ["tvi.imb_fd", "price.mid_fd"])
        (FetchesOwn extractedClass ["tvi.imb_fd", "price.mid_fd"])
        (.start ["tvi.imb_fd", "price.mid_fd"] []) twoDownloads :=
  ⟨by decide +kernel, fetchesOwn_of_readsOwn _ _ _ (by decide +kernel)⟩

/-- The worker of the first one runs when the loop has stored the variables for the second. -/
def lateDownload : List Action :=
  List.replicate 9 .main ++ List.replicate 4 (.worker "tvi.imb_fd" .extracts)

/-- It requests the second. -/
theorem not_fetchesOwn_lateDownload :
    ¬ Transition.AllStates (step extractedClass ["tvi.imb_fd", "price.mid_fd"])
      (FetchesOwn extractedClass ["tvi.imb_fd", "price.mid_fd"])
      (.start ["tvi.imb_fd", "price.mid_fd"] []) lateDownload := by
  intro h
  have hrequest : (Transition.run (step extractedClass ["tvi.imb_fd", "price.mid_fd"])
      (.start ["tvi.imb_fd", "price.mid_fd"] []) lateDownload).bind
        (fun s => dictGet s.futures "tvi.imb_fd") = some (.requested ⟨"price", "mid_fd", "1",
          some "/tmp/svoe_feature_definitions/price/mid_fd"⟩) := by decide +kernel
  obtain ⟨final, hrun, hget⟩ := Option.bind_eq_some_iff.1 hrequest
  have hown := (Transition.of_allStates h hrun).own _ _ hget _ rfl
  revert hown
  decide +kernel

end DefinitionsLoader

end Svoe
