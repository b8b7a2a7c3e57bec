import Svoe.Airflow.Sync
import Svoe.Airflow.Transport
import Svoe.Transition.Basic

/-!
# Running the dags of the users

`DagRunner.run_dag` replaces the dag config of a user in the database, waits until Airflow has the
dag, and runs it.  Airflow executes `gen_dags.py` again and again, which makes the files of the
folder those of the database, generates the dags, and reports the ones that cannot be generated.
The requests to the API server and the rounds of `gen_dags.py` take turns in any order.

* `changes_proceed` : what a step of a request may change.
* `dagInv_step` : what every step keeps, if the requests of a user follow one another.
* `runDag_own` : every user has at most one config, and a request gets what its own config leads to.
* `runDag_lockedOut` : a user with two configs has them for ever, and no further request runs.
-/

namespace Svoe

namespace Airflow

open Json Transition

variable {F ε : Type}

/-! ### Configs -/

/-- `user_dag_conf_to_airflow_dag_conf`, the config. -/
def airflowDagConf (dagName : PathStr) (conf : List (Key × Value F)) : Value F :=
  .dict [(.str (dagName.map CodePoint.ofChar), .dict (dictUpdate conf
    [(strKey "default_args", .dict [(strKey "owner", .str (pyStr "default")),
        (strKey "start_date", .str (pyStr "1992-09-02"))]),
      (strKey "schedule_interval", .null), (strKey "catchup", .bool false),
      (strKey "is_paused_upon_creation", .bool false), (strKey "max_active_runs", .int 1)]))]

/-- `user_dag_conf_to_airflow_dag_conf`, the name. -/
def dagNameOf (ownerId : PathStr) (now : ℕ) : PathStr :=
  "dag-".toList ++ ownerId ++ '-' :: Nat.toDigits 10 now

/-- `DEFAULT_DAG_YAML_SUFFIX`. -/
def yamlSuffix : PathStr := ".yaml".toList

/-- What the requests and the rounds of `gen_dags.py` use of the environment. -/
structure Deployment (F ε : Type) where
  format : FloatFormat F
  env : Env ε
  dagsFolder : PathStr
  /-- `yaml.dump`. -/
  yamlDump : Value F → List Char
  /-- `DagFactory(path).generate_dags`, by the text of the file: the names of the dags, or a trace. -/
  generateDags : List Char → Except (List Char) (List PathStr)
  dagsFolder_ne : dagsFolder ≠ []
  render_base64Encode : ∀ conf, env.render (base64Encode format conf) = .ok (yamlDump conf.reread)
  /-- The dags are those of the keys of a file. -/
  generateDags_names : ∀ dagName conf names,
    generateDags (yamlDump (airflowDagConf dagName conf).reread) = .ok names → names = [dagName]

/-- A config that was saved, with its owner and the second of its name. -/
structure SavedDag (F : Type) where
  ownerId : PathStr
  second : ℕ
  conf : List (Key × Value F)

namespace SavedDag

/-- `dag_name`. -/
def name (dag : SavedDag F) : PathStr := dagNameOf dag.ownerId dag.second

/-- `dag_config_encoded`. -/
def encoded (D : Deployment F ε) (dag : SavedDag F) : List Char :=
  base64Encode D.format (airflowDagConf dag.name dag.conf)

/-- The text of the file of the config. -/
def text (D : Deployment F ε) (dag : SavedDag F) : List Char :=
  D.yamlDump (airflowDagConf dag.name dag.conf).reread

end SavedDag

/-! ### The control plane -/

/-- A row of `dag_configs`. -/
structure DagRow where
  ownerId : PathStr
  config : DagConfigEncoded
  compilationError : Option (List Char)
  deriving DecidableEq

/-- The errors of `run_dag`. -/
inductive RunDagError where
  /-- `RuntimeError(text)`. -/
  | runtime (text : List Char)
  /-- `ValueError('Malformed dag, remote trace: …')`. -/
  | malformed (trace : List Char)
  /-- `ValueError('Unable to get validated dag in db after 30s, last exception: …')`. -/
  | notValidated (lastException : Option (List Char))
  /-- The row has a primary key that there is already. -/
  | integrity
  /-- The attribute of a row that there is not. -/
  | attribute
  /-- An exception of the Airflow client. -/
  | client (text : List Char)
  deriving DecidableEq

/-- The error of a user with more than one config. -/
def moreThanOneConf (userId : PathStr) (n : ℕ) : RunDagError :=
  .runtime ("User ".toList ++ userId ++ " has more than 1 conf stored (".toList ++
    Nat.toDigits 10 n ++ ")".toList)

/-- Where a request is in `run_dag`, by what it does next. -/
inductive RunDagPhase where
  | selectConfigs
  /-- `delete_dag` of the previous one. -/
  | deleteDag (prevDagName : PathStr)
  | deleteConfigs
  | saveConfig
  | getDag (dagName : PathStr) (lastException : Option (List Char))
  | getCompilationError (dagName : PathStr) (exception : List Char)
  /-- `delete_dag` of one that cannot be generated. -/
  | deleteMalformed (dagName trace : PathStr)
  | deleteMalformedConfigs (trace : List Char)
  | postDagRun (dagName : PathStr)
  | returned (dagName : PathStr)
  | raised (error : RunDagError)
  deriving DecidableEq

/-- The request is over. -/
def RunDagPhase.isOver : RunDagPhase → Bool
  | returned _ => true
  | raised _ => true
  | _ => false

/-- A request to run a dag. -/
structure DagRequest (F : Type) where
  userId : PathStr
  conf : List (Key × Value F)
  phase : RunDagPhase

/-- Where a round of `gen_dags.py` is. -/
inductive GenDags where
  | idle
  | syncConfigs (confs : List DagConfigEncoded)
  /-- The files that were not read yet, and the dags of the others with the texts of their files. -/
  | generate (files : List PathStr) (dags : List (PathStr × List Char))
  deriving DecidableEq

/-- The database, the folder, Airflow, and the requests.  `dags` has the text of the file that each
dag of Airflow was generated from, `saved` all configs that were ever in the database. -/
structure DagState (F : Type) where
  now : ℕ
  rows : List DagRow
  folder : Folder
  dags : List (PathStr × List Char)
  genDags : GenDags
  requests : List (DagRequest F)
  saved : List (SavedDag F)

/-- Before the first request. -/
def DagState.initial (now : ℕ) (folder : Folder) : DagState F :=
  ⟨now, [], folder, [], .idle, [], []⟩

/-- What can happen. -/
inductive DagAction (F : Type) where
  /-- A second passes. -/
  | tick
  /-- A request comes. -/
  | request (userId : PathStr) (conf : List (Key × Value F))
  /-- A request does the next thing; the Airflow client returns or raises. -/
  | proceed (i : ℕ) (answer : Except (List Char) Unit)
  /-- A request has waited for its dag for 30 s. -/
  | timeout (i : ℕ)
  /-- `gen_dags.py` does the next thing. -/
  | genDags

/-- What a request does next. -/
def proceed (D : Deployment F ε) (r : DagRequest F) (answer : Except (List Char) Unit)
    (s : DagState F) : Option (RunDagPhase × DagState F) :=
  let rowsOfUser := s.rows.filter fun row => row.ownerId = r.userId
  let otherRows := s.rows.filter fun row => row.ownerId ≠ r.userId
  match r.phase with
  | .selectConfigs =>
    if 1 < rowsOfUser.length then some (.raised (moreThanOneConf r.userId rowsOfUser.length), s)
    else
      match rowsOfUser with
      | [] => some (.saveConfig, s)
      | row :: _ => some (.deleteDag row.config.dagName, s)
  | .deleteDag prevDagName =>
    match answer with
    | .ok _ =>
      some (.deleteConfigs, { s with dags := s.dags.filter fun p => p.1 ≠ prevDagName })
    | .error _ => some (.deleteConfigs, s)
  | .deleteConfigs => some (.saveConfig, { s with rows := otherRows })
  | .saveConfig =>
    let dag : SavedDag F := ⟨r.userId, s.now, r.conf⟩
    if ∃ row ∈ s.rows, row.ownerId = r.userId ∧ row.config.dagName = dag.name then
      some (.raised .integrity, s)
    else
      let row : DagRow := ⟨r.userId, ⟨dag.name, dag.encoded D⟩, none⟩
      some (.getDag dag.name none, { s with rows := s.rows ++ [row], saved := s.saved ++ [dag] })
  | .getDag dagName _ =>
    match answer with
    | .ok _ =>
      if ∃ p ∈ s.dags, p.1 = dagName then some (.postDagRun dagName, s) else none
    | .error e => some (.getCompilationError dagName e, s)
  | .getCompilationError dagName exception =>
    match s.rows.find? fun row => row.config.dagName = dagName with
    | none => some (.raised .attribute, s)
    | some row =>
      match row.compilationError with
      | none => some (.getDag dagName (some exception), s)
      | some trace => some (.deleteMalformed dagName trace, s)
  | .deleteMalformed dagName trace =>
    match answer with
    | .ok _ =>
      some (.deleteMalformedConfigs trace, { s with dags := s.dags.filter fun p => p.1 ≠ dagName })
    | .error _ => some (.deleteMalformedConfigs trace, s)
  | .deleteMalformedConfigs trace =>
    some (.raised (.malformed trace), { s with rows := otherRows })
  | .postDagRun dagName =>
    match answer with
    | .ok _ => if ∃ p ∈ s.dags, p.1 = dagName then some (.returned dagName, s) else none
    | .error e => some (.raised (.client e), s)
  | .returned _ => none
  | .raised _ => none

/-- `str.removesuffix`. -/
def removeSuffix (suffix name : PathStr) : PathStr :=
  if suffix <:+ name then name.take (name.length - suffix.length) else name

/-- `report_compilation_error`; a name without a row raises, which is passed over. -/
def reportCompilationError (dagName : PathStr) (error : List Char) : List DagRow → List DagRow
  | [] => []
  | row :: rows =>
    if row.config.dagName = dagName then { row with compilationError := some error } :: rows
    else row :: reportCompilationError dagName error rows

/-- The files that `rglob` finds. -/
def yamlFiles (folder : Folder) : List PathStr :=
  (folder.entries.filter fun p => p.2.isFile && decide (yamlSuffix <:+ p.1)).map Prod.fst

/-- What `gen_dags.py` does next.  A sync that raises ends the round; here it leaves the folder. -/
def genDags (D : Deployment F ε) (s : DagState F) : DagState F :=
  match s.genDags with
  | .idle =>
    let confs := s.rows.filter fun row => row.compilationError = none
    { s with genDags := .syncConfigs (confs.map DagRow.config) }
  | .syncConfigs confs =>
    match syncConfigs D.env D.dagsFolder yamlSuffix confs s.folder with
    | .error _ => { s with genDags := .idle }
    | .ok folder => { s with folder, genDags := .generate (yamlFiles folder) [] }
  | .generate [] dags => { s with genDags := .idle, dags := dictUpdate s.dags dags }
  | .generate (file :: files) dags =>
    match s.folder.get file with
    | some (.file text _) =>
      match D.generateDags text with
      | .ok names => { s with genDags := .generate files (dags ++ names.map fun n => (n, text)) }
      | .error trace =>
        { s with
          genDags := .generate files dags
          rows := reportCompilationError (removeSuffix yamlSuffix file) trace s.rows }
    | _ => { s with genDags := .generate files dags }

/-- Set the phase of a request. -/
def DagState.setPhase (s : DagState F) (i : ℕ) (phase : RunDagPhase) : DagState F :=
  { s with requests := s.requests.modify i fun r => { r with phase } }

/-- One step. -/
def dagStep (D : Deployment F ε) (s : DagState F) : DagAction F → Option (DagState F)
  | .tick => some { s with now := s.now + 1 }
  | .request userId conf =>
    some { s with requests := s.requests ++ [⟨userId, conf, .selectConfigs⟩] }
  | .proceed i answer =>
    s.requests[i]?.bind fun r =>
      (proceed D r answer s).map fun (phase, s') => s'.setPhase i phase
  | .timeout i =>
    s.requests[i]?.bind fun r =>
      match r.phase with
      | .getDag _ lastException => some (s.setPhase i (.raised (.notValidated lastException)))
      | _ => none
  | .genDags => some (genDags D s)

/-! ### Names -/

/-- A list is split in one way at the last of its dashes. -/
theorem append_dash_inj {l l' d d' : List Char} (hd : '-' ∉ d) (hd' : '-' ∉ d')
    (h : l ++ '-' :: d = l' ++ '-' :: d') : l = l' ∧ d = d' := by
  rcases List.append_eq_append_iff.1 h with ⟨c, rfl, hc⟩ | ⟨c, rfl, hc⟩
  · cases c with
    | nil => exact ⟨(List.append_nil l).symm, (List.cons.inj hc).2⟩
    | cons a c =>
      rw [(List.cons.inj hc).2] at hd
      exact absurd (List.mem_append_right c List.mem_cons_self) hd
  · cases c with
    | nil => exact ⟨List.append_nil l', (List.cons.inj hc).2.symm⟩
    | cons a c =>
      rw [(List.cons.inj hc).2] at hd'
      exact absurd (List.mem_append_right c List.mem_cons_self) hd'

/-- The name says the owner and the second. -/
theorem dagNameOf_inj {ownerId ownerId' : PathStr} {now now' : ℕ} :
    dagNameOf ownerId now = dagNameOf ownerId' now' ↔ ownerId = ownerId' ∧ now = now' := by
  refine ⟨fun h => ?_, by rintro ⟨rfl, rfl⟩; rfl⟩
  have hdigits : ∀ n, '-' ∉ Nat.toDigits 10 n := fun n hmem =>
    absurd (Nat.isDigit_of_mem_toDigits (by omega) (by omega) hmem) (by decide)
  obtain ⟨howner, hnow⟩ := append_dash_inj (hdigits now) (hdigits now') h
  refine ⟨List.append_cancel_left howner, ?_⟩
  rw [← Nat.ofDigitChars_ten_toDigits (n := now), hnow, Nat.ofDigitChars_ten_toDigits]

theorem isFileName_dagNameOf {ownerId : PathStr} (h : '/' ∉ ownerId) (now : ℕ) :
    IsFileName (dagNameOf ownerId now ++ yamlSuffix) := by
  have hdigits : '/' ∉ Nat.toDigits 10 now := fun hmem =>
    absurd (Nat.isDigit_of_mem_toDigits (by omega) (by omega) hmem) (by decide)
  have hdag : '/' ∉ "dag-".toList := by decide
  have hyaml : '/' ∉ yamlSuffix := by decide
  have hdash : '/' ≠ '-' := by decide
  have hhead : (dagNameOf ownerId now ++ yamlSuffix).head? = some 'd' := rfl
  refine ⟨?_, ?_, ?_, ?_⟩
  · simp only [dagNameOf, List.mem_append, List.mem_cons, hdag, h, hdash, hdigits, hyaml, or_self,
      not_false_eq_true]
  · exact fun heq => absurd (heq ▸ hhead) (by decide)
  · exact fun heq => absurd (heq ▸ hhead) (by decide)
  · exact fun heq => absurd (heq ▸ hhead) (by decide)

theorem removeSuffix_append (suffix name : PathStr) : removeSuffix suffix (name ++ suffix) = name := by
  rw [removeSuffix, if_pos (List.suffix_append _ _)]
  simp

/-! ### Syncing -/

section Sync

variable {env : Env ε} {dagsFolder suffix : PathStr} {folder folder' : Folder}
  {confs : List DagConfigEncoded}

/-- The file that is written for a config. -/
theorem storeConfig_text {conf : DagConfigEncoded} (h : IsFileName (conf.dagName ++ suffix))
    (hok : storeConfig env dagsFolder suffix folder conf = .ok folder') :
    ∃ text writes, env.render conf.dagConfigEncoded = .ok text ∧
      folder' = folder.set _ h (.file text writes) := by
  unfold storeConfig write at hok
  rw [entryOf_constructDagYamlPath h] at hok
  obtain ⟨text, hrender, hok⟩ := bind_eq_ok_iff.1 hok
  dsimp only at hok
  split at hok
  · cases hok
  · exact ⟨text, _, hrender, (Except.ok.inj hok).symm⟩
  · obtain ⟨_, -, hset⟩ := map_eq_ok_iff.1 hok
    exact ⟨text, _, hrender, hset.symm⟩

/-- A file is as it was before, or was written for a config. -/
theorem file_of_storeConfigs (hnames : ∀ c ∈ confs, IsFileName (c.dagName ++ suffix))
    (hok : storeConfigsToYamlFiles env dagsFolder suffix confs folder = .ok folder')
    {n : PathStr} {text : List Char} {writes : ℕ} (hn : folder'.get n = some (.file text writes)) :
    folder.get n = some (.file text writes) ∨
      ∃ c ∈ confs, n = c.dagName ++ suffix ∧ env.render c.dagConfigEncoded = .ok text := by
  induction confs generalizing folder with
  | nil =>
    obtain rfl := Except.ok.inj hok
    exact .inl hn
  | cons conf confs ih =>
    obtain ⟨hconf, hconfs⟩ := List.forall_mem_cons.1 hnames
    rw [storeConfigsToYamlFiles, List.foldlM_cons, bind_eq_ok_iff] at hok
    obtain ⟨folder₁, hfirst, hrest⟩ := hok
    rcases ih hconfs hrest with hn₁ | ⟨c, hc, hcn⟩
    · obtain ⟨text', writes', hrender, rfl⟩ := storeConfig_text hconf hfirst
      rw [Folder.get_set] at hn₁
      split_ifs at hn₁ with heq
      · cases hn₁
        exact .inr ⟨conf, List.mem_cons_self, heq.symm, hrender⟩
      · exact .inl hn₁
    · exact .inr ⟨c, List.mem_cons_of_mem _ hc, hcn⟩

/-- The same behind a sync, which deletes files only. -/
theorem file_of_syncConfigs (hd : dagsFolder ≠ [])
    (hnames : ∀ c ∈ confs, IsFileName (c.dagName ++ suffix))
    (hok : syncConfigs env dagsFolder suffix confs folder = .ok folder')
    {n : PathStr} {text : List Char} {writes : ℕ} (hn : folder'.get n = some (.file text writes)) :
    folder.get n = some (.file text writes) ∨
      ∃ c ∈ confs, n = c.dagName ++ suffix ∧ env.render c.dagConfigEncoded = .ok text := by
  obtain ⟨names, hfileNames, hdiff, -⟩ := exists_toDelete dagsFolder suffix confs folder
  obtain ⟨folder₁, hstore, hdelete⟩ := syncConfigs_eq_ok_iff.1 hok
  rw [hdiff] at hdelete
  rw [get_of_delete hd hfileNames hdelete] at hn
  split_ifs at hn with hdeleted
  rcases file_of_storeConfigs (fun c hc => hnames c (mem_toAdd_iff.1 hc).1) hstore hn with hn | hn
  · exact .inl hn
  · obtain ⟨c, hc, hcn⟩ := hn
    exact .inr ⟨c, (mem_toAdd_iff.1 hc).1, hcn⟩

end Sync

/-! ### The invariant -/

section Inv

variable (D : Deployment F ε)

/-- The requests of a user follow one another, and get their names in different seconds.  A user
id has no slash. -/
def Separate (s : DagState F) : DagAction F → Prop
  | .request userId _ => '/' ∉ userId ∧ ∀ r ∈ s.requests, r.userId = userId → r.phase.isOver
  | .proceed i _ => ∀ r ∈ s.requests[i]?, r.phase = .saveConfig →
      ∀ dag ∈ s.saved, dag.ownerId = r.userId → dag.second ≠ s.now
  | _ => True

instance decidableSeparate (s : DagState F) : DecidablePred (Separate s)
  | .tick => .isTrue trivial
  | .request .. => inferInstanceAs (Decidable (_ ∧ _))
  | .proceed .. => inferInstanceAs (Decidable (∀ r ∈ _, _ → _))
  | .timeout _ => .isTrue trivial
  | .genDags => .isTrue trivial

/-- The names of the dags of a user. -/
def dagNames (rows : List DagRow) (userId : PathStr) : List PathStr :=
  (rows.filter fun row => row.ownerId = userId).map fun row => row.config.dagName

/-- A dag of Airflow, with the text it was generated from, is one that was saved. -/
def Generated (saved : List (SavedDag F)) (p : PathStr × List Char) : Prop :=
  ∃ dag ∈ saved, p = (dag.name, dag.text D) ∧ D.generateDags (dag.text D) = .ok [dag.name]

/-- The dag that a request has saved. -/
def IsOwn (r : DagRequest F) (dag : SavedDag F) : Prop :=
  dag.ownerId = r.userId ∧ dag.conf = r.conf

/-- What is known where a request is. -/
def RequestOk (saved : List (SavedDag F)) (rows : List DagRow) (r : DagRequest F) : Prop :=
  match r.phase with
  | .saveConfig => dagNames rows r.userId = []
  | .getDag dagName _ | .getCompilationError dagName _ =>
    ∃ dag ∈ saved, IsOwn r dag ∧ dagName = dag.name ∧ dagName ∈ dagNames rows r.userId
  | .deleteMalformed _ trace | .deleteMalformedConfigs trace | .raised (.malformed trace) =>
    ∃ dag ∈ saved, IsOwn r dag ∧ D.generateDags (dag.text D) = .error trace
  | .postDagRun dagName | .returned dagName =>
    ∃ dag ∈ saved, IsOwn r dag ∧ dagName = dag.name ∧
      D.generateDags (dag.text D) = .ok [dag.name]
  | .raised (.runtime _) | .raised .integrity | .raised .attribute => False
  | .selectConfigs | .deleteDag _ | .deleteConfigs | .raised (.notValidated _)
  | .raised (.client _) => True

/-- What is known where a round of `gen_dags.py` is. -/
def GenDagsOk (saved : List (SavedDag F)) : GenDags → Prop
  | .idle => True
  | .syncConfigs confs => ∀ c ∈ confs, ∃ dag ∈ saved, c = ⟨dag.name, dag.encoded D⟩
  | .generate files dags => (∀ file ∈ files, yamlSuffix <:+ file) ∧ ∀ p ∈ dags, Generated D saved p

/-- All that is stored is of configs that were saved, with different names, and every user has at
most one. -/
structure StoreInv (s : DagState F) : Prop where
  owners : ∀ dag ∈ s.saved, '/' ∉ dag.ownerId
  names : (s.saved.map SavedDag.name).Nodup
  rows : ∀ row ∈ s.rows, ∃ dag ∈ s.saved, row.ownerId = dag.ownerId ∧
    row.config = ⟨dag.name, dag.encoded D⟩ ∧
      ∀ trace ∈ row.compilationError, D.generateDags (dag.text D) = .error trace
  users : (s.rows.map DagRow.ownerId).Nodup
  files : ∀ file text writes, s.folder.get file = some (.file text writes) → yamlSuffix <:+ file →
    ∃ dag ∈ s.saved, file = dag.name ++ yamlSuffix ∧ text = dag.text D
  genDags : GenDagsOk D s.saved s.genDags
  dags : ∀ p ∈ s.dags, Generated D s.saved p

/-- The invariant of the control plane. -/
structure DagInv (s : DagState F) : Prop where
  store : StoreInv D s
  users : ∀ r ∈ s.requests, '/' ∉ r.userId
  requests : ∀ r ∈ s.requests, RequestOk D s.saved s.rows r
  /-- An earlier request of a user is over. -/
  inTurn : s.requests.Pairwise fun r r' => r.userId = r'.userId → r.phase.isOver

end Inv

section Store

variable {D : Deployment F ε} {s s' : DagState F} {r : DagRequest F} {phase : RunDagPhase}
  {answer : Except (List Char) Unit} {saved saved' : List (SavedDag F)} {rows rows' : List DagRow}

/-- Saved configs that come later change nothing. -/
theorem Generated.mono (h : saved ⊆ saved') {p : PathStr × List Char}
    (hp : Generated D saved p) : Generated D saved' p := by
  obtain ⟨dag, hdag, hp⟩ := hp
  exact ⟨dag, h hdag, hp⟩

theorem GenDagsOk.mono (h : saved ⊆ saved') {g : GenDags} (hg : GenDagsOk D saved g) :
    GenDagsOk D saved' g := by
  cases g with
  | idle => trivial
  | syncConfigs confs =>
    intro c hc
    obtain ⟨dag, hdag, hc⟩ := hg c hc
    exact ⟨dag, h hdag, hc⟩
  | generate files dags => exact ⟨hg.1, fun p hp => (hg.2 p hp).mono h⟩

/-- A request depends on the rows of its user only, and on these until it is over. -/
theorem RequestOk.mono (hsaved : saved ⊆ saved')
    (hrows : r.phase.isOver = false → dagNames rows' r.userId = dagNames rows r.userId)
    (h : RequestOk D saved rows r) : RequestOk D saved' rows' r := by
  unfold RequestOk at h ⊢
  split at h
  · next hphase => exact (hrows (by rw [hphase]; rfl)).trans h
  · next hphase =>
    obtain ⟨dag, hdag, hown, rfl, hrow⟩ := h
    exact ⟨dag, hsaved hdag, hown, rfl, (hrows (by rw [hphase]; rfl)).symm ▸ hrow⟩
  · next hphase =>
    obtain ⟨dag, hdag, hown, rfl, hrow⟩ := h
    exact ⟨dag, hsaved hdag, hown, rfl, (hrows (by rw [hphase]; rfl)).symm ▸ hrow⟩
  all_goals first
    | trivial
    | exact h.elim
    | exact h.imp fun dag hdag => ⟨hsaved hdag.1, hdag.2⟩

/-- A user has a dag if it is that of a row of the user. -/
theorem mem_dagNames_iff {userId n : PathStr} :
    n ∈ dagNames rows userId ↔ ∃ row ∈ rows, row.ownerId = userId ∧ row.config.dagName = n := by
  simp [dagNames, and_assoc]

theorem dagNames_eq_nil_iff {userId : PathStr} :
    dagNames rows userId = [] ↔ ∀ row ∈ rows, row.ownerId ≠ userId := by
  simp [dagNames, List.filter_eq_nil_iff]

/-- What a request may change: it removes dags, removes the rows of its user, or saves its own. -/
inductive Changes (D : Deployment F ε) (r : DagRequest F) (s : DagState F) : DagState F → Prop
  | dags (dags : List (PathStr × List Char)) (h : dags ⊆ s.dags) : Changes D r s { s with dags }
  | otherRows : Changes D r s { s with rows := s.rows.filter fun row => row.ownerId ≠ r.userId }
  | save (dag : SavedDag F) (hdag : dag = ⟨r.userId, s.now, r.conf⟩) (h : r.phase = .saveConfig) :
    Changes D r s { s with
      rows := s.rows ++ [⟨r.userId, ⟨dag.name, dag.encoded D⟩, none⟩]
      saved := s.saved ++ [dag] }

theorem changes_proceed (h : proceed D r answer s = some (phase, s')) : Changes D r s s' := by
  have hsame : ∀ {phase' : RunDagPhase}, some (phase', s) = some (phase, s') →
      Changes D r s s' := by
    rintro phase' ⟨⟩
    exact .dags s.dags (List.Subset.refl _)
  have hdags : ∀ {phase' : RunDagPhase} {dagName},
      some (phase', { s with dags := s.dags.filter fun p => p.1 ≠ dagName }) = some (phase, s') →
        Changes D r s s' := by
    rintro phase' dagName ⟨⟩
    exact .dags _ fun p hp => (List.mem_filter.1 hp).1
  have hrows : ∀ {phase' : RunDagPhase}, some (phase',
      { s with rows := s.rows.filter fun row => row.ownerId ≠ r.userId }) = some (phase, s') →
        Changes D r s s' := by
    rintro phase' ⟨⟩
    exact .otherRows
  unfold proceed at h
  dsimp only at h
  split at h
  · split_ifs at h
    · exact hsame h
    · split at h <;> exact hsame h
  · split at h
    · exact hdags h
    · exact hsame h
  · exact hrows h
  · next hphase =>
    split_ifs at h
    · exact hsame h
    · cases h
      exact .save _ rfl hphase
  · split at h
    · split_ifs at h
      exact hsame h
    · exact hsame h
  · split at h
    · exact hsame h
    · split at h <;> exact hsame h
  · split at h
    · exact hdags h
    · exact hsame h
  · exact hrows h
  · split at h
    · split_ifs at h
      exact hsame h
    · exact hsame h
  · cases h
  · cases h

/-- Another user's request leaves the dags of a user. -/
theorem Changes.dagNames (h : Changes D r s s') {userId : PathStr} (hne : r.userId ≠ userId) :
    dagNames s'.rows userId = Airflow.dagNames s.rows userId := by
  cases h with
  | dags => rfl
  | otherRows =>
    rw [Airflow.dagNames, Airflow.dagNames, List.filter_filter]
    refine congrArg (List.map _) (List.filter_congr fun row _ => ?_)
    by_cases h : row.ownerId = userId <;> simp [h, hne.symm]
  | save => rw [Airflow.dagNames, Airflow.dagNames, List.filter_append]; simp [hne]

theorem Changes.saved_subset (h : Changes D r s s') : s.saved ⊆ s'.saved := by
  cases h with
  | dags => exact List.Subset.refl _
  | otherRows => exact List.Subset.refl _
  | save => exact List.subset_append_left _ _

theorem Changes.requests (h : Changes D r s s') : s'.requests = s.requests := by
  cases h <;> rfl

/-- What is saved by a request that comes from a user with no row, in a new second. -/
theorem StoreInv.save (h : StoreInv D s) (dag : SavedDag F) (howner : '/' ∉ dag.ownerId)
    (hnew : ∀ dag' ∈ s.saved, dag'.ownerId = dag.ownerId → dag'.second ≠ dag.second)
    (hrow : ∀ row ∈ s.rows, row.ownerId ≠ dag.ownerId) :
    StoreInv D { s with
      rows := s.rows ++ [⟨dag.ownerId, ⟨dag.name, dag.encoded D⟩, none⟩]
      saved := s.saved ++ [dag] } where
  owners := List.forall_mem_append.2 ⟨h.owners, List.forall_mem_singleton.2 howner⟩
  names := by
    rw [List.map_append]
    refine List.nodup_append.2 ⟨h.names, List.nodup_singleton _, ?_⟩
    rintro _ hname _ hname' rfl
    obtain ⟨dag', hdag', heq⟩ := List.mem_map.1 hname
    obtain ⟨howner', hsecond⟩ := dagNameOf_inj.1 (heq.trans (List.mem_singleton.1 hname'))
    exact hnew dag' hdag' howner' hsecond
  rows := by
    refine List.forall_mem_append.2 ⟨fun row hrow => ?_, List.forall_mem_singleton.2 ?_⟩
    · obtain ⟨dag', hdag', hof⟩ := h.rows row hrow
      exact ⟨dag', List.mem_append_left _ hdag', hof⟩
    · exact ⟨dag, List.mem_append_right _ List.mem_cons_self, rfl, rfl, nofun⟩
  users := by
    rw [List.map_append]
    refine List.nodup_append.2 ⟨h.users, List.nodup_singleton _, ?_⟩
    rintro _ huser _ huser' rfl
    obtain ⟨row, hmem, heq⟩ := List.mem_map.1 huser
    exact hrow row hmem (heq.trans (List.mem_singleton.1 huser'))
  files file text writes hget hsuffix := by
    obtain ⟨dag', hdag', hof⟩ := h.files file text writes hget hsuffix
    exact ⟨dag', List.mem_append_left _ hdag', hof⟩
  genDags := h.genDags.mono (List.subset_append_left _ _)
  dags p hp := (h.dags p hp).mono (List.subset_append_left _ _)

theorem Changes.storeInv (hchanges : Changes D r s s') (h : StoreInv D s)
    (hr : RequestOk D s.saved s.rows r) (huser : '/' ∉ r.userId)
    (hnew : r.phase = .saveConfig →
      ∀ dag ∈ s.saved, dag.ownerId = r.userId → dag.second ≠ s.now) : StoreInv D s' := by
  cases hchanges with
  | dags dags hdags => exact { h with dags := fun p hp => h.dags p (hdags hp) }
  | otherRows =>
    exact { h with
      rows := fun row hrow => h.rows row (List.mem_filter.1 hrow).1
      users := h.users.sublist (List.filter_sublist.map _) }
  | save dag hdag hphase =>
    subst hdag
    rw [RequestOk, hphase] at hr
    exact h.save ⟨r.userId, s.now, r.conf⟩ huser (hnew hphase) (dagNames_eq_nil_iff.1 hr)

/-- There is at most one row of a user. -/
theorem StoreInv.length_le (h : StoreInv D s) (userId : PathStr) :
    (s.rows.filter fun row => row.ownerId = userId).length ≤ 1 := by
  have hcount := List.nodup_iff_count_le_one.1 h.users userId
  rw [List.count, List.countP_map, List.countP_eq_length_filter] at hcount
  simpa [Function.comp_def, beq_eq_decide] using hcount

/-- A row says what is known of a saved dag. -/
theorem StoreInv.row_of_name (h : StoreInv D s) {row : DagRow} (hrow : row ∈ s.rows)
    {dag : SavedDag F} (hdag : dag ∈ s.saved) (hname : row.config.dagName = dag.name) :
    row.ownerId = dag.ownerId ∧
      ∀ trace ∈ row.compilationError, D.generateDags (dag.text D) = .error trace := by
  obtain ⟨dag', hdag', howner, hconfig, herror⟩ := h.rows row hrow
  rw [hconfig] at hname
  obtain rfl := List.inj_on_of_nodup_map h.names hdag' hdag hname
  exact ⟨howner, herror⟩

/-- What is known behind the next thing that a request does. -/
theorem requestOk_proceed (h : StoreInv D s) (hr : RequestOk D s.saved s.rows r)
    (hproceed : proceed D r answer s = some (phase, s')) :
    RequestOk D s'.saved s'.rows { r with phase } := by
  unfold RequestOk at hr
  unfold proceed at hproceed
  dsimp only at hproceed
  cases hphase : r.phase with
  | selectConfigs =>
    rw [hphase] at hproceed
    dsimp only at hproceed
    rw [if_neg (h.length_le r.userId).not_gt] at hproceed
    split at hproceed
    · next hnone =>
      cases hproceed
      exact (congrArg (List.map _) hnone : _ = [])
    · cases hproceed
      trivial
  | deleteDag prevDagName =>
    rw [hphase] at hproceed
    cases answer <;> cases hproceed <;> trivial
  | deleteConfigs =>
    rw [hphase] at hproceed
    cases hproceed
    exact dagNames_eq_nil_iff.2 fun row hrow => by simpa using (List.mem_filter.1 hrow).2
  | saveConfig =>
    rw [hphase] at hr hproceed
    dsimp only at hproceed
    split_ifs at hproceed with hrow
    · obtain ⟨row, hrow, howner, -⟩ := hrow
      exact absurd howner (dagNames_eq_nil_iff.1 hr row hrow)
    · cases hproceed
      have hmem : ∀ {α : Type} (l : List α) (a : α), a ∈ l ++ [a] := fun l a =>
        List.mem_append_right l List.mem_cons_self
      exact ⟨⟨r.userId, s.now, r.conf⟩, hmem _ _, ⟨rfl, rfl⟩, rfl,
        mem_dagNames_iff.2 ⟨_, hmem _ _, rfl, rfl⟩⟩
  | getDag dagName lastException =>
    rw [hphase] at hr hproceed
    obtain ⟨dag, hdag, hown, rfl, hrow⟩ := hr
    cases answer with
    | ok _ =>
      dsimp only at hproceed
      split_ifs at hproceed with hmem
      cases hproceed
      obtain ⟨p, hp, hname⟩ := hmem
      obtain ⟨dag', hdag', rfl, hgenerate⟩ := h.dags p hp
      obtain rfl := List.inj_on_of_nodup_map h.names hdag' hdag hname
      exact ⟨dag', hdag', hown, rfl, hgenerate⟩
    | error e =>
      cases hproceed
      exact ⟨dag, hdag, hown, rfl, hrow⟩
  | getCompilationError dagName exception =>
    rw [hphase] at hr hproceed
    obtain ⟨dag, hdag, hown, rfl, hmem⟩ := hr
    obtain ⟨row, hrow, -, hname⟩ := mem_dagNames_iff.1 hmem
    dsimp only at hproceed
    split at hproceed
    · next hnone =>
      exact absurd hname (by simpa using List.find?_eq_none.1 hnone row hrow)
    · next row' hfind =>
      obtain ⟨-, herror⟩ := h.row_of_name (List.mem_of_find?_eq_some hfind) hdag
        (by simpa using List.find?_some hfind)
      split at hproceed
      · cases hproceed
        exact ⟨dag, hdag, hown, rfl, hmem⟩
      · next trace htrace =>
        cases hproceed
        exact ⟨dag, hdag, hown, herror trace htrace⟩
  | deleteMalformed dagName trace =>
    rw [hphase] at hr hproceed
    cases answer <;> cases hproceed <;> exact hr
  | deleteMalformedConfigs trace =>
    rw [hphase] at hr hproceed
    cases hproceed
    exact hr
  | postDagRun dagName =>
    rw [hphase] at hr hproceed
    cases answer with
    | ok _ =>
      dsimp only at hproceed
      split_ifs at hproceed
      cases hproceed
      exact hr
    | error e =>
      cases hproceed
      trivial
  | returned dagName =>
    rw [hphase] at hproceed
    cases hproceed
  | raised error =>
    rw [hphase] at hproceed
    cases hproceed

end Store

/-! ### Rounds of `gen_dags.py` -/

section Rounds

variable {D : Deployment F ε} {s s' : DagState F}

/-- The rows after a report, but for their errors. -/
theorem map_reportCompilationError (dagName : PathStr) (trace : List Char) (rows : List DagRow) :
    (reportCompilationError dagName trace rows).map (fun row => (row.ownerId, row.config)) =
      rows.map fun row => (row.ownerId, row.config) := by
  induction rows with
  | nil => rfl
  | cons row rows ih =>
    rw [reportCompilationError]
    split_ifs
    · rfl
    · rw [List.map_cons, List.map_cons, ih]

/-- A row after a report is one from before, or that of the dag with the error. -/
theorem mem_reportCompilationError {dagName : PathStr} {trace : List Char} {rows : List DagRow}
    {row : DagRow} (h : row ∈ reportCompilationError dagName trace rows) :
    row ∈ rows ∨ ∃ row' ∈ rows, row'.config.dagName = dagName ∧
      row = { row' with compilationError := some trace } := by
  induction rows with
  | nil => exact .inl h
  | cons first rows ih =>
    rw [reportCompilationError] at h
    split_ifs at h with hname
    · rcases List.mem_cons.1 h with rfl | h
      · exact .inr ⟨first, List.mem_cons_self, hname, rfl⟩
      · exact .inl (List.mem_cons_of_mem _ h)
    · rcases List.mem_cons.1 h with rfl | h
      · exact .inl List.mem_cons_self
      · rcases ih h with h | ⟨row', hrow', heq⟩
        · exact .inl (List.mem_cons_of_mem _ h)
        · exact .inr ⟨row', List.mem_cons_of_mem _ hrow', heq⟩

/-- A report is of the dag whose file cannot be generated. -/
theorem StoreInv.report (h : StoreInv D s) {dag : SavedDag F} (hdag : dag ∈ s.saved)
    {trace : List Char} (htrace : D.generateDags (dag.text D) = .error trace) :
    StoreInv D { s with rows := reportCompilationError dag.name trace s.rows } := by
  have hmap := map_reportCompilationError dag.name trace s.rows
  refine ⟨h.owners, h.names, fun row hrow => ?_, ?_, h.files, h.genDags, h.dags⟩
  · rcases mem_reportCompilationError hrow with hrow | ⟨row', hrow', hname, rfl⟩
    · exact h.rows row hrow
    · obtain ⟨dag', hdag', howner, hconfig, -⟩ := h.rows row' hrow'
      rw [hconfig] at hname
      obtain rfl := List.inj_on_of_nodup_map h.names hdag' hdag hname
      refine ⟨dag', hdag', howner, hconfig, ?_⟩
      rintro _ ⟨⟩
      exact htrace
  · have husers := congrArg (List.map Prod.fst) hmap
    rw [List.map_map, List.map_map] at husers
    exact (congrArg List.Nodup husers).mpr h.users

theorem dagNames_reportCompilationError (dagName : PathStr) (trace : List Char)
    (rows : List DagRow) (userId : PathStr) :
    dagNames (reportCompilationError dagName trace rows) userId = dagNames rows userId := by
  have hpairs : ∀ rows, dagNames rows userId = ((rows.map fun row : DagRow =>
      (row.ownerId, row.config)).filter fun p => p.1 = userId).map fun p => p.2.dagName := by
    intro rows
    rw [dagNames, List.filter_map, List.map_map]
    rfl
  rw [hpairs, hpairs, map_reportCompilationError]

theorem dagNames_genDags (s : DagState F) (userId : PathStr) :
    dagNames (genDags D s).rows userId = dagNames s.rows userId := by
  unfold genDags
  split
  · rfl
  · split <;> rfl
  · rfl
  · split
    · split
      · rfl
      · exact dagNames_reportCompilationError _ _ _ _
    · rfl

theorem mem_yamlFiles {folder : Folder} {file : PathStr} (h : file ∈ yamlFiles folder) :
    yamlSuffix <:+ file := by
  obtain ⟨p, hp, rfl⟩ := List.mem_map.1 h
  have hfile := (List.mem_filter.1 hp).2
  rw [Bool.and_eq_true, decide_eq_true_eq] at hfile
  exact hfile.2

/-- A round stores nothing but what belongs to configs that were saved. -/
theorem storeInv_genDags (h : StoreInv D s) : StoreInv D (genDags D s) := by
  have hgen := h.genDags
  unfold genDags
  split
  · exact { h with
      genDags := fun c hc => by
        obtain ⟨row, hrow, rfl⟩ := List.mem_map.1 hc
        obtain ⟨dag, hdag, -, hconfig, -⟩ := h.rows row (List.mem_filter.1 hrow).1
        exact ⟨dag, hdag, hconfig⟩ }
  · next confs hphase =>
    rw [hphase] at hgen
    split
    · exact { h with genDags := trivial }
    · next folder hsync =>
      have hnames : ∀ c ∈ confs, IsFileName (c.dagName ++ yamlSuffix) := by
        intro c hc
        obtain ⟨dag, hdag, rfl⟩ := hgen c hc
        exact isFileName_dagNameOf (h.owners dag hdag) dag.second
      refine ⟨h.owners, h.names, h.rows, h.users, fun file text writes hget hsuffix => ?_,
        ⟨fun file => mem_yamlFiles, nofun⟩, h.dags⟩
      rcases file_of_syncConfigs D.dagsFolder_ne hnames hsync hget with hold | ⟨c, hc, rfl, hrender⟩
      · exact h.files file text writes hold hsuffix
      · obtain ⟨dag, hdag, rfl⟩ := hgen c hc
        refine ⟨dag, hdag, rfl, ?_⟩
        rw [SavedDag.encoded, D.render_base64Encode] at hrender
        exact (Except.ok.inj hrender).symm
  · next dags hphase =>
    rw [hphase] at hgen
    refine ⟨h.owners, h.names, h.rows, h.users, h.files, trivial, fun p hp => ?_⟩
    exact (mem_or_mem_of_mem_dictUpdate hp).elim (h.dags p) (hgen.2 p)
  · next file files dags hphase =>
    rw [hphase] at hgen
    obtain ⟨hsuffix, hfiles⟩ := List.forall_mem_cons.1 hgen.1
    have hrest : GenDagsOk D s.saved (.generate files dags) := ⟨hfiles, hgen.2⟩
    split
    · next text writes hget =>
      obtain ⟨dag, hdag, rfl, rfl⟩ := h.files file text writes hget hsuffix
      split
      · next names hnames =>
        obtain rfl := D.generateDags_names dag.name dag.conf names hnames
        refine { h with genDags := ⟨hfiles, fun p hp => ?_⟩ }
        rcases List.mem_append.1 hp with hp | hp
        · exact hgen.2 p hp
        · exact ⟨dag, hdag, List.mem_singleton.1 hp, hnames⟩
      · next trace htrace =>
        rw [removeSuffix_append]
        exact { h.report hdag htrace with genDags := hrest }
    · exact { h with genDags := hrest }

/-- A round leaves the requests, and what was saved. -/
theorem genDags_frame (s : DagState F) :
    (genDags D s).requests = s.requests ∧ (genDags D s).saved = s.saved := by
  unfold genDags
  split
  · exact ⟨rfl, rfl⟩
  · split <;> exact ⟨rfl, rfl⟩
  · exact ⟨rfl, rfl⟩
  · split
    · split <;> exact ⟨rfl, rfl⟩
    · exact ⟨rfl, rfl⟩

end Rounds

/-! ### Steps -/

section Steps

variable {D : Deployment F ε} {s s' : DagState F} {r r' : DagRequest F} {phase : RunDagPhase}
  {i : ℕ} {action : DagAction F} {actions : List (DagAction F)}

/-- The requests behind a step of one of them. -/
theorem mem_setPhase (hi : s.requests[i]? = some r) (h : r' ∈ (s.setPhase i phase).requests) :
    r' = { r with phase } ∨ ∃ j ≠ i, s.requests[j]? = some r' := by
  obtain ⟨j, hj⟩ := List.mem_iff_getElem?.1 h
  rw [DagState.setPhase, List.getElem?_modify] at hj
  by_cases hij : i = j
  · subst hij
    rw [hi] at hj
    simp only [Option.map_eq_map, Option.map_some, if_true, Option.some.injEq] at hj
    exact .inl hj.symm
  · simp only [hij, if_false, Option.map_eq_map, Option.map_id'] at hj
    exact .inr ⟨j, Ne.symm hij, hj⟩

/-- The other requests of a user are over while one is not. -/
theorem DagInv.over_of_ne (h : DagInv D s) (hi : s.requests[i]? = some r)
    (hactive : r.phase.isOver = false) {j : ℕ} (hj : s.requests[j]? = some r') (hne : j ≠ i)
    (huser : r'.userId = r.userId) : r'.phase.isOver := by
  obtain ⟨hi', rfl⟩ := List.getElem?_eq_some_iff.1 hi
  obtain ⟨hj', rfl⟩ := List.getElem?_eq_some_iff.1 hj
  have hover := List.pairwise_iff_getElem.1 h.inTurn
  rcases lt_or_gt_of_ne hne with hlt | hlt
  · exact hover j i hj' hi' hlt huser
  · rw [hover i j hi' hj' hlt huser.symm] at hactive
    cases hactive

/-- A step of one request. -/
theorem DagInv.setPhase (h : DagInv D s) (hi : s.requests[i]? = some r)
    (hactive : r.phase.isOver = false) (hstore : StoreInv D s') (hrequests : s'.requests = s.requests)
    (hsaved : s.saved ⊆ s'.saved)
    (hrows : ∀ userId, r.userId ≠ userId → dagNames s'.rows userId = dagNames s.rows userId)
    (hr : RequestOk D s'.saved s'.rows { r with phase }) : DagInv D (s'.setPhase i phase) := by
  have hi' : s'.requests[i]? = some r := by rw [hrequests, hi]
  have hmem : ∀ r' ∈ (s'.setPhase i phase).requests,
      r' = { r with phase } ∨ ∃ j ≠ i, s.requests[j]? = some r' := by
    intro r' hr'
    rw [← hrequests]
    exact mem_setPhase hi' hr'
  refine ⟨⟨hstore.owners, hstore.names, hstore.rows, hstore.users, hstore.files, hstore.genDags,
    hstore.dags⟩, fun r' hr' => ?_, fun r' hr' => ?_, ?_⟩
  · rcases hmem r' hr' with rfl | ⟨j, -, hj⟩
    · exact h.users r (List.mem_of_getElem? hi)
    · exact h.users r' (List.mem_of_getElem? hj)
  · rcases hmem r' hr' with rfl | ⟨j, hne, hj⟩
    · exact hr
    · refine (h.requests r' (List.mem_of_getElem? hj)).mono hsaved fun hactive' => hrows _ ?_
      intro huser
      rw [h.over_of_ne hi hactive hj hne huser.symm] at hactive'
      cases hactive'
  · rw [DagState.setPhase, hrequests, List.pairwise_iff_getElem]
    intro j k hj hk hjk huser
    rw [List.length_modify] at hj hk
    have hover := List.pairwise_iff_getElem.1 h.inTurn j k hj hk hjk
    rw [List.getElem_modify, List.getElem_modify] at huser
    rw [List.getElem_modify]
    have huser' : s.requests[j].userId = s.requests[k].userId := by
      split_ifs at huser <;> exact huser
    by_cases hij : i = j
    · -- the request that took the step is not over
      subst hij
      obtain rfl := Option.some.inj ((List.getElem?_eq_getElem hj).symm.trans hi)
      rw [hover huser'] at hactive
      cases hactive
    · rw [if_neg hij]
      exact hover huser'

theorem isOver_of_proceed {answer : Except (List Char) Unit} {p : RunDagPhase × DagState F}
    (h : proceed D r answer s = some p) : r.phase.isOver = false := by
  cases hphase : r.phase with
  | returned =>
    rw [proceed, hphase] at h
    cases h
  | raised =>
    rw [proceed, hphase] at h
    cases h
  | _ => rfl

/-- Every step keeps the invariant. -/
theorem dagInv_step (h : DagInv D s) (hseparate : Separate s action)
    (hstep : dagStep D s action = some s') : DagInv D s' := by
  cases action with
  | tick =>
    cases hstep
    exact ⟨⟨h.store.owners, h.store.names, h.store.rows, h.store.users, h.store.files,
      h.store.genDags, h.store.dags⟩, h.users, h.requests, h.inTurn⟩
  | request userId conf =>
    cases hstep
    refine ⟨⟨h.store.owners, h.store.names, h.store.rows, h.store.users, h.store.files,
      h.store.genDags, h.store.dags⟩, ?_, ?_, ?_⟩
    · exact List.forall_mem_append.2 ⟨h.users, List.forall_mem_singleton.2 hseparate.1⟩
    · exact List.forall_mem_append.2 ⟨h.requests, List.forall_mem_singleton.2 trivial⟩
    · refine List.pairwise_append.2 ⟨h.inTurn, List.pairwise_singleton _ _, ?_⟩
      exact fun r hr => List.forall_mem_singleton.2 fun huser => hseparate.2 r hr huser
  | proceed i answer =>
    obtain ⟨r, hi, hmap⟩ := Option.bind_eq_some_iff.1 hstep
    obtain ⟨⟨phase, t⟩, hproceed, rfl⟩ := Option.map_eq_some_iff.1 hmap
    have hmem := List.mem_of_getElem? hi
    have hchanges := changes_proceed hproceed
    exact h.setPhase hi (isOver_of_proceed hproceed)
      (hchanges.storeInv h.store (h.requests r hmem) (h.users r hmem) (hseparate r hi))
      hchanges.requests hchanges.saved_subset (fun userId hne => hchanges.dagNames hne)
      (requestOk_proceed h.store (h.requests r hmem) hproceed)
  | timeout i =>
    obtain ⟨r, hi, hsome⟩ := Option.bind_eq_some_iff.1 hstep
    split at hsome
    · next hphase =>
      cases hsome
      exact h.setPhase hi (by rw [hphase]; rfl) h.store rfl (List.Subset.refl _)
        (fun _ _ => rfl) trivial
    · cases hsome
  | genDags =>
    cases hstep
    obtain ⟨hrequests, hsaved⟩ := genDags_frame (D := D) s
    refine ⟨storeInv_genDags h.store, ?_, ?_, ?_⟩
    · rw [hrequests]
      exact h.users
    · rw [hrequests, hsaved]
      exact fun r hr => (h.requests r hr).mono (List.Subset.refl _) fun _ =>
        dagNames_genDags s r.userId
    · rw [hrequests]
      exact h.inTurn

/-- No request has been made, and the folder has no yaml files. -/
theorem dagInv_initial (now : ℕ) {folder : Folder} (hfolder : yamlFiles folder = []) :
    DagInv D (.initial now folder) where
  store := by
    refine ⟨nofun, List.nodup_nil, nofun, List.nodup_nil, ?_, trivial, nofun⟩
    intro file text writes hget hsuffix
    have hmem : file ∈ yamlFiles folder := List.mem_map.2 ⟨(file, .file text writes),
      List.mem_filter.2 ⟨Folder.get_eq_some_iff.1 hget, by simp [Entry.isFile, hsuffix]⟩, rfl⟩
    rw [hfolder] at hmem
    cases hmem
  users := nofun
  requests := nofun
  inTurn := List.Pairwise.nil

/-- What a request has led to is what its own config leads to: the dag that is run was generated from
it, and Airflow has no other dag of this name; an error is the trace of generating it, or one of
the Airflow client. -/
def OwnOutcome (D : Deployment F ε) (s : DagState F) (r : DagRequest F) : Prop :=
  match r.phase with
  | .returned dagName => ∃ second, dagName = dagNameOf r.userId second ∧
    D.generateDags (SavedDag.text D ⟨r.userId, second, r.conf⟩) = .ok [dagName] ∧
      ∀ text, (dagName, text) ∈ s.dags → text = SavedDag.text D ⟨r.userId, second, r.conf⟩
  | .raised (.malformed trace) => ∃ second,
    D.generateDags (SavedDag.text D ⟨r.userId, second, r.conf⟩) = .error trace
  | .raised (.notValidated _) | .raised (.client _) => True
  | .raised _ => False
  | _ => True

/-- **A request gets what its own config leads to**: if the requests of a user follow one another and
get their names in different seconds, then every user has at most one config, and a request runs
its own dag or reports its own error, in whatever order the requests of all users and the rounds of
`gen_dags.py` proceed. -/
theorem runDag_own {now : ℕ} {folder : Folder} (hfolder : yamlFiles folder = [])
    (h : run (dagStep D) (.initial now folder) actions = some s)
    (hseparate : AllSteps (dagStep D) Separate (.initial now folder) actions) :
    (∀ userId, (s.rows.filter fun row => row.ownerId = userId).length ≤ 1) ∧
      ∀ r ∈ s.requests, OwnOutcome D s r := by
  have hs : DagInv D s := invariant_of_allSteps (fun _ _ _ => dagInv_step)
    (dagInv_initial now hfolder) hseparate h
  refine ⟨hs.store.length_le, fun r hr => ?_⟩
  have hok := hs.requests r hr
  unfold RequestOk at hok
  unfold OwnOutcome
  cases hphase : r.phase with
  | returned dagName =>
    rw [hphase] at hok
    obtain ⟨dag, hdag, ⟨howner, hconf⟩, rfl, hgenerate⟩ := hok
    have heq : (⟨r.userId, dag.second, r.conf⟩ : SavedDag F) = dag := by rw [← howner, ← hconf]
    refine ⟨dag.second, by rw [← howner]; rfl, heq ▸ hgenerate, fun text htext => ?_⟩
    obtain ⟨dag', hdag', hp, -⟩ := hs.store.dags _ htext
    obtain ⟨hname, rfl⟩ := Prod.mk.inj hp
    rw [heq, List.inj_on_of_nodup_map hs.store.names hdag hdag' hname]
  | raised error =>
    rw [hphase] at hok
    cases error with
    | malformed trace =>
      obtain ⟨dag, hdag, ⟨howner, hconf⟩, herror⟩ := hok
      have heq : (⟨r.userId, dag.second, r.conf⟩ : SavedDag F) = dag := by rw [← howner, ← hconf]
      exact ⟨dag.second, heq ▸ herror⟩
    | _ => trivial
  | _ => trivial

/-! ### A deployment -/

/-- The name that a key is the text of. -/
def keyName (k : Key) : PathStr := k.text.map fun c => Char.ofNat c.val

/-- Generating the dags of a text of JSON, which is yaml: every dag has tasks. -/
def generateTasks (text : List Char) : Except (List Char) (List PathStr) :=
  match loads half text with
  | some (.dict dags) =>
    if dags.all fun p => (p.2.get (strKey "tasks")).isSome then
      .ok (dags.map fun p => keyName p.1)
    else .error "KeyError: 'tasks'".toList
  | _ => .error "yaml.YAMLError".toList

theorem toNat_ofChar (c : Char) : (CodePoint.ofChar c).val = c.toNat := by
  have hvalid : c.toNat < 0xD800 ∨ 0xDFFF < c.toNat ∧ c.toNat < 0x110000 := c.valid
  rw [CodePoint.ofChar, Fin.val_ofNat]
  exact Nat.mod_eq_of_lt (by omega)

/-- A character is no surrogate. -/
theorem not_hasSurrogatePair_map_ofChar (t : List Char) :
    ¬HasSurrogatePair (t.map CodePoint.ofChar) := by
  have hhigh : ∀ c : Char, ¬(CodePoint.ofChar c).IsHighSurrogate := by
    intro c
    rw [CodePoint.IsHighSurrogate, toNat_ofChar]
    have hvalid : c.toNat < 0xD800 ∨ 0xDFFF < c.toNat ∧ c.toNat < 0x110000 := c.valid
    omega
  induction t with
  | nil => exact id
  | cons c t ih =>
    cases t with
    | nil => exact id
    | cons d t => exact fun h => h.elim (fun h => hhigh c h.1) ih

/-- A name as a key comes back. -/
theorem reread_airflowDagConf (dagName : PathStr) (conf : List (Key × Value F)) :
    ∃ conf', (airflowDagConf dagName conf).reread.reread =
      .dict [(.str (dagName.map CodePoint.ofChar), conf')] := by
  have hkey : (Key.str (dagName.map CodePoint.ofChar)).reread =
      .str (dagName.map CodePoint.ofChar) :=
    (Value.reread_key_eq_self_iff _).2 (not_hasSurrogatePair_map_ofChar dagName)
  have hreread : ∀ v : Value F, (Value.dict [(.str (dagName.map CodePoint.ofChar), v)]).reread =
      .dict [(.str (dagName.map CodePoint.ofChar), v.reread)] := by
    intro v
    rw [Value.reread, Value.rereadItems_eq, List.map_cons, List.map_nil, hkey]
    rfl
  rw [airflowDagConf, hreread, hreread]
  exact ⟨_, rfl⟩

theorem keyName_map_ofChar (t : PathStr) : keyName (.str (t.map CodePoint.ofChar)) = t := by
  rw [keyName, Key.text, List.map_map]
  refine (List.map_congr_left fun c _ => ?_).trans (List.map_id t)
  rw [Function.comp_apply, toNat_ofChar]
  exact Char.ofNat_toNat c

/-- `yaml.dump` writes JSON here. -/
def sampleDeployment : Deployment Unit String where
  format := half
  env := { sampleEnv with
    render := fun encoded =>
      match base64Decode half encoded with
      | .ok conf => .ok (dumps half conf)
      | .error _ => .error "binascii.Error" }
  dagsFolder := "/dags".toList
  yamlDump := dumps half
  generateDags := generateTasks
  dagsFolder_ne := by decide
  render_base64Encode conf := by
    dsimp only
    rw [base64Decode_base64Encode]
  generateDags_names dagName conf names h := by
    obtain ⟨conf', hconf⟩ := reread_airflowDagConf dagName conf
    rw [generateTasks, loads_dumps, hconf] at h
    dsimp only at h
    split_ifs at h
    rw [← Except.ok.inj h, List.map_cons, List.map_nil, keyName_map_ofChar]

/-- No dag files. -/
def emptyFolder : Folder := ⟨[], List.nodup_nil, nofun⟩

/-- The requests of two users, the second of which waits in vain. -/
def twoUsers : List (DagAction Unit) :=
  [.request ['1'] [(strKey "tasks", .dict [])], .request ['2'] [], .proceed 0 (.ok ()),
    .proceed 1 (.ok ()), .proceed 0 (.ok ()), .genDags, .proceed 1 (.ok ()), .proceed 1 (.error []),
    .proceed 1 (.ok ()), .genDags, .genDags, .genDags, .proceed 0 (.ok ()), .timeout 1,
    .proceed 0 (.ok ())]

theorem runDag_own_twoUsers :
    ∃ s, run (dagStep sampleDeployment) (.initial 1 emptyFolder) twoUsers = some s ∧
      (∀ userId, (s.rows.filter fun row => row.ownerId = userId).length ≤ 1) ∧
        ∀ r ∈ s.requests, OwnOutcome sampleDeployment s r := by
  have hsome : (run (dagStep sampleDeployment) (.initial 1 emptyFolder) twoUsers).isSome := by
    decide +kernel
  obtain ⟨s, hrun⟩ := Option.isSome_iff_exists.1 hsome
  exact ⟨s, hrun, runDag_own (by decide +kernel) hrun (by decide +kernel)⟩

/-! ### Users with two configs -/

/-- A user has some dags, the first requests of the user are over, and the others have not run. -/
structure LockedOut (userId : PathStr) (names : List PathStr) (n : ℕ) (s : DagState F) : Prop where
  length : n ≤ s.requests.length
  rows : dagNames s.rows userId = names
  before : ∀ i r, s.requests[i]? = some r → r.userId = userId → i < n → r.phase.isOver
  after : ∀ i r, s.requests[i]? = some r → r.userId = userId → n ≤ i →
    r.phase = .selectConfigs ∨ r.phase = .raised (moreThanOneConf userId names.length)

/-- A user with two dags can run none. -/
theorem proceed_selectConfigs {answer : Except (List Char) Unit} {p : RunDagPhase × DagState F}
    (hphase : r.phase = .selectConfigs) (hrows : 1 < (dagNames s.rows r.userId).length)
    (h : proceed D r answer s = some p) :
    p = (.raised (moreThanOneConf r.userId (dagNames s.rows r.userId).length), s) := by
  rw [dagNames, List.length_map] at hrows ⊢
  rw [proceed, hphase] at h
  dsimp only at h
  rw [if_pos hrows] at h
  exact (Option.some.inj h).symm

/-- A step of a request that may be taken. -/
theorem LockedOut.setPhase {userId : PathStr} {names : List PathStr} {n : ℕ}
    (h : LockedOut userId names n s) (hi : s.requests[i]? = some r)
    (hrequests : s'.requests = s.requests) (hrows : dagNames s'.rows userId = names)
    (hphase : r.userId = userId →
      n ≤ i ∧ phase = .raised (moreThanOneConf userId names.length)) :
    LockedOut userId names n (s'.setPhase i phase) := by
  have hget : ∀ j r', (s'.setPhase i phase).requests[j]? = some r' →
      j = i ∧ r' = { r with phase } ∨ s.requests[j]? = some r' := by
    intro j r' hj
    rw [DagState.setPhase, hrequests, List.getElem?_modify] at hj
    by_cases hij : i = j
    · subst hij
      rw [hi] at hj
      simp only [Option.map_eq_map, Option.map_some, if_true, Option.some.injEq] at hj
      exact .inl ⟨rfl, hj.symm⟩
    · simp only [hij, if_false, Option.map_eq_map, Option.map_id'] at hj
      exact .inr hj
  refine ⟨?_, hrows, fun j r' hj huser hlt => ?_, fun j r' hj huser hle => ?_⟩
  · rw [DagState.setPhase, List.length_modify, hrequests]
    exact h.length
  · rcases hget j r' hj with ⟨rfl, rfl⟩ | hj
    · exact absurd (hphase huser).1 hlt.not_ge
    · exact h.before j r' hj huser hlt
  · rcases hget j r' hj with ⟨rfl, rfl⟩ | hj
    · exact .inr (hphase huser).2
    · exact h.after j r' hj huser hle

theorem lockedOut_step {userId : PathStr} {names : List PathStr} {n : ℕ} (hnames : 1 < names.length)
    (h : LockedOut userId names n s) (hstep : dagStep D s action = some s') :
    LockedOut userId names n s' := by
  cases action with
  | tick =>
    cases hstep
    exact ⟨h.length, h.rows, h.before, h.after⟩
  | request user conf =>
    cases hstep
    refine ⟨h.length.trans (by simp), h.rows, fun i r hi huser hlt => ?_,
      fun i r hi huser hle => ?_⟩
    · rw [List.getElem?_append_left (hlt.trans_le h.length)] at hi
      exact h.before i r hi huser hlt
    · rcases lt_or_ge i s.requests.length with hlt | hge
      · rw [List.getElem?_append_left hlt] at hi
        exact h.after i r hi huser hle
      · rw [List.getElem?_append_right hge] at hi
        rw [List.mem_singleton.1 (List.mem_of_getElem? hi)]
        exact .inl rfl
  | proceed i answer =>
    obtain ⟨r, hi, hmap⟩ := Option.bind_eq_some_iff.1 hstep
    obtain ⟨⟨phase, t⟩, hproceed, rfl⟩ := Option.map_eq_some_iff.1 hmap
    have hchanges := changes_proceed hproceed
    by_cases huser : r.userId = userId
    · have hle : n ≤ i := by
        by_contra hlt
        have hover := h.before i r hi huser (not_le.1 hlt)
        rw [isOver_of_proceed hproceed] at hover
        cases hover
      rcases h.after i r hi huser hle with hphase | hphase
      · subst huser
        have hp := proceed_selectConfigs hphase (by rw [h.rows]; exact hnames) hproceed
        rw [h.rows] at hp
        obtain ⟨rfl, rfl⟩ := Prod.mk.inj hp
        exact h.setPhase hi rfl h.rows fun _ => ⟨hle, rfl⟩
      · have hactive := isOver_of_proceed hproceed
        rw [hphase] at hactive
        cases hactive
    · exact h.setPhase hi hchanges.requests ((hchanges.dagNames huser).trans h.rows)
        fun heq => absurd heq huser
  | timeout i =>
    obtain ⟨r, hi, hsome⟩ := Option.bind_eq_some_iff.1 hstep
    split at hsome
    · next hphase =>
      cases hsome
      refine h.setPhase hi rfl h.rows fun huser => ?_
      rcases lt_or_ge i n with hlt | hle
      · have hover := h.before i r hi huser hlt
        rw [hphase] at hover
        cases hover
      · have hafter := h.after i r hi huser hle
        rw [hphase] at hafter
        rcases hafter with hafter | hafter <;> cases hafter
    · cases hsome
  | genDags =>
    cases hstep
    obtain ⟨hrequests, -⟩ := genDags_frame (D := D) s
    refine ⟨?_, (dagNames_genDags s userId).trans h.rows, ?_, ?_⟩
    · rw [hrequests]
      exact h.length
    · rw [hrequests]
      exact h.before
    · rw [hrequests]
      exact h.after

/-- **A user with two configs is locked out**: when the requests of the user are over, the user keeps
both for ever, whatever happens, and every further request raises. -/
theorem runDag_lockedOut {userId : PathStr} (hrows : 1 < (dagNames s.rows userId).length)
    (hover : ∀ r ∈ s.requests, r.userId = userId → r.phase.isOver)
    (h : run (dagStep D) s actions = some s') :
    dagNames s'.rows userId = dagNames s.rows userId ∧
      ∀ r ∈ s'.requests.drop s.requests.length, r.userId = userId →
        r.phase = .selectConfigs ∨
          r.phase = .raised (moreThanOneConf userId (dagNames s.rows userId).length) := by
  have hs : LockedOut userId (dagNames s.rows userId) s.requests.length s' :=
    invariant_of_run (fun _ _ _ => lockedOut_step hrows)
      ⟨le_rfl, rfl, fun i r hi huser _ => hover r (List.mem_of_getElem? hi) huser,
        fun i r hi _ hle => by simp [List.getElem?_eq_none hle] at hi⟩ h
  refine ⟨hs.rows, fun r hr huser => ?_⟩
  obtain ⟨i, hi⟩ := List.mem_iff_getElem?.1 hr
  rw [List.getElem?_drop] at hi
  exact hs.after _ r hi huser (Nat.le_add_right _ _)

/-- Two requests of a user at a time: both find no config, and both save theirs. -/
def overlapping : List (DagAction Unit) :=
  [.request ['1'] [], .request ['1'] [], .proceed 0 (.ok ()), .proceed 1 (.ok ()),
    .proceed 0 (.ok ()), .tick, .proceed 1 (.ok ()), .timeout 0, .timeout 1]

theorem runDag_lockedOut_overlapping :
    ∃ s s', run (dagStep sampleDeployment) (.initial 1 emptyFolder) overlapping = some s ∧
      run (dagStep sampleDeployment) s [.request ['1'] [], .proceed 2 (.ok ())] = some s' ∧
        dagNames s'.rows ['1'] = dagNames s.rows ['1'] ∧
          ∀ r ∈ s'.requests.drop s.requests.length, r.userId = ['1'] →
            r.phase = .selectConfigs ∨
              r.phase = .raised (moreThanOneConf ['1'] (dagNames s.rows ['1']).length) := by
  have hrun : ((run (dagStep sampleDeployment) (.initial 1 emptyFolder) overlapping).any fun s =>
      decide (1 < (dagNames s.rows ['1']).length ∧
        ∀ r ∈ s.requests, r.userId = ['1'] → r.phase.isOver = true) &&
          (run (dagStep sampleDeployment) s
            [.request ['1'] [], .proceed 2 (.ok ())]).isSome) = true := by decide +kernel
  obtain ⟨s, hs, hlocked⟩ := Option.any_eq_true .. |>.1 hrun
  rw [Bool.and_eq_true, decide_eq_true_eq] at hlocked
  obtain ⟨s', hs'⟩ := Option.isSome_iff_exists.1 hlocked.2
  exact ⟨s, s', hs, hs', runDag_lockedOut hlocked.1.1 hlocked.1.2 hs'⟩

end Steps

end Airflow

end Svoe
