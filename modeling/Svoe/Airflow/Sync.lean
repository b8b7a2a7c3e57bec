import Mathlib.Data.List.Infix
import Svoe.Common.Dict
import Svoe.Common.Frame

/-!
# Syncing the dag files

`sync_configs` makes the yaml files of a folder those of the dag configs of the database.  Whether a
config has its file is decided by comparing path strings: that of `os.path.join` for the files of
the folder, and the folder, a slash and the name for the configs.  The two differ if the folder's
name ends with a slash; then the files of the configs are written, and deleted as files of no
config.

* `entryOf_osPathJoin`, `entryOf_constructDagYamlPath` : both strings are paths of the file.
* `get_of_store`, `get_of_delete` : what the two steps do to every name.
* `converges_iff` : when syncing makes the files those of the configs, and once is enough.
-/

namespace Svoe

namespace Airflow

/-! ### Folders -/

/-- A file name or a path. -/
abbrev PathStr := List Char

/-- What a directory can have as the name of an entry. -/
def IsFileName (name : PathStr) : Prop :=
  '/' ∉ name ∧ name ≠ [] ∧ name ≠ ['.'] ∧ name ≠ ['.', '.']

instance (name : PathStr) : Decidable (IsFileName name) := inferInstanceAs (Decidable (_ ∧ _))

/-- An entry of the folder; a regular file has a text, and was opened for writing some times. -/
inductive Entry where
  | file (text : List Char) (writes : ℕ)
  | directory
  deriving DecidableEq

/-- `os.path.isfile`. -/
def Entry.isFile : Entry → Bool
  | file _ _ => true
  | directory => false

/-- The entries of a folder, in the order of `os.listdir`. -/
structure Folder where
  entries : List (PathStr × Entry)
  nodup : (entries.map Prod.fst).Nodup
  isFileName : ∀ name ∈ entries.map Prod.fst, IsFileName name
  deriving DecidableEq

namespace Folder

/-- The entry of a name. -/
def get (folder : Folder) (name : PathStr) : Option Entry := dictGet folder.entries name

/-- Create or replace an entry. -/
def set (folder : Folder) (name : PathStr) (h : IsFileName name) (entry : Entry) : Folder where
  entries := dictSet folder.entries name entry
  nodup := nodup_keys_dictSet folder.nodup name entry
  isFileName n hn := by
    rw [keys_dictSet] at hn
    split_ifs at hn with hmem
    · exact folder.isFileName n hn
    · rcases List.mem_append.1 hn with hn | hn
      · exact folder.isFileName n hn
      · rwa [List.mem_singleton.1 hn]

/-- Remove an entry. -/
def erase (folder : Folder) (name : PathStr) : Folder where
  entries := dictErase folder.entries name
  nodup := folder.nodup.sublist (List.eraseP_sublist.map Prod.fst)
  isFileName n hn := folder.isFileName n ((List.eraseP_sublist.map Prod.fst).subset hn)

theorem get_set (folder : Folder) {name : PathStr} (h : IsFileName name) (entry : Entry)
    (n : PathStr) :
    (folder.set name h entry).get n = if name = n then some entry else folder.get n :=
  dictGet_dictSet _ _ _ _

theorem get_erase (folder : Folder) (name n : PathStr) :
    (folder.erase name).get n = if name = n then none else folder.get n :=
  dictGet_dictErase folder.nodup _ _

theorem get_eq_some_iff {folder : Folder} {name : PathStr} {entry : Entry} :
    folder.get name = some entry ↔ (name, entry) ∈ folder.entries :=
  dictGet_eq_some_iff folder.nodup

theorem isFileName_of_get {folder : Folder} {name : PathStr} {entry : Entry}
    (h : folder.get name = some entry) : IsFileName name :=
  folder.isFileName name (List.mem_map_of_mem (f := Prod.fst) (get_eq_some_iff.1 h))

end Folder

/-! ### Paths -/

/-- `os.path.join`. -/
def osPathJoin (a b : PathStr) : PathStr :=
  if b.head? = some '/' then b
  else if a = [] ∨ a.getLast? = some '/' then a ++ b
  else a ++ '/' :: b

/-- The name that a path has in the folder, if it is the folder's name, slashes and a file name. -/
def entryOf (dagsFolder path : PathStr) : Option {name : PathStr // IsFileName name} :=
  match dagsFolder.isPrefixOf? path with
  | none => none
  | some rest =>
    if dagsFolder.getLast? = some '/' ∨ rest.head? = some '/' then
      if h : IsFileName (rest.dropWhile (· = '/')) then some ⟨_, h⟩ else none
    else none

/-! ### Syncing -/

/-- A row of `DagConfigEncoded`. -/
structure DagConfigEncoded where
  dagName : PathStr
  dagConfigEncoded : List Char
  deriving DecidableEq

/-- What `sync_configs` uses that is not in the folder. -/
structure Env (ε : Type*) where
  /-- `yaml.dump(base64_decode(…))`. -/
  render : List Char → Except ε (List Char)
  /-- Whether the file system lets a file of the name be created. -/
  create : PathStr → Except ε Unit
  /-- The error of opening or removing a directory. -/
  isADirectory : ε
  /-- Writing a text to a path that has no name in the folder. -/
  writeElsewhere : PathStr → List Char → Folder → Except ε Folder
  /-- Removing such a path, if it exists. -/
  removeElsewhere : PathStr → Folder → Except ε Folder

/-- `construct_dag_yaml_path`. -/
def constructDagYamlPath (dagsFolder dagName suffix : PathStr) : PathStr :=
  dagsFolder ++ '/' :: (dagName ++ suffix)

section Model

variable {ε : Type*} (env : Env ε) (dagsFolder suffix : PathStr)

/-- `with open(path, 'w') as outfile`, and the text written. -/
def write (path : PathStr) (text : List Char) (folder : Folder) : Except ε Folder :=
  match entryOf dagsFolder path with
  | none => env.writeElsewhere path text folder
  | some ⟨name, h⟩ =>
    match folder.get name with
    | some .directory => .error env.isADirectory
    | some (.file _ writes) => .ok (folder.set name h (.file text (writes + 1)))
    | none => (env.create name).map fun _ => folder.set name h (.file text 1)

/-- One round of `store_configs_to_yaml_files`. -/
def storeConfig (folder : Folder) (conf : DagConfigEncoded) : Except ε Folder :=
  (env.render conf.dagConfigEncoded).bind fun text =>
    write env dagsFolder (constructDagYamlPath dagsFolder conf.dagName suffix) text folder

/-- `store_configs_to_yaml_files`. -/
def storeConfigsToYamlFiles (confs : List DagConfigEncoded) (folder : Folder) : Except ε Folder :=
  confs.foldlM (storeConfig env dagsFolder suffix) folder

/-- One round of `delete_files`. -/
def deleteFile (folder : Folder) (path : PathStr) : Except ε Folder :=
  match entryOf dagsFolder path with
  | none => env.removeElsewhere path folder
  | some ⟨name, _⟩ =>
    match folder.get name with
    | some .directory => .error env.isADirectory
    | some (.file _ _) => .ok (folder.erase name)
    | none => .ok folder

/-- `delete_files`. -/
def deleteFiles (toDelete : List PathStr) (folder : Folder) : Except ε Folder :=
  toDelete.foldlM (deleteFile env dagsFolder) folder

/-- The paths of the files with the suffix. -/
def onDisc (folder : Folder) : List PathStr :=
  (folder.entries.filter fun p => p.2.isFile && decide (suffix <:+ osPathJoin dagsFolder p.1)).map
    fun p => osPathJoin dagsFolder p.1

/-- `diff`. -/
def diff (confs : List DagConfigEncoded) (folder : Folder) :
    List DagConfigEncoded × List PathStr :=
  let confsFileNames := confs.map fun e => constructDagYamlPath dagsFolder e.dagName suffix
  (confs.filter fun e =>
      constructDagYamlPath dagsFolder e.dagName suffix ∉ onDisc dagsFolder suffix folder,
    (onDisc dagsFolder suffix folder).filter fun f => f ∉ confsFileNames)

/-- `sync_configs`. -/
def syncConfigs (confs : List DagConfigEncoded) (folder : Folder) : Except ε Folder :=
  let (toAdd, toDelete) := diff dagsFolder suffix confs folder
  (storeConfigsToYamlFiles env dagsFolder suffix toAdd folder).bind
    (deleteFiles env dagsFolder toDelete)

end Model

/-! ### What syncing is for -/

section Spec

variable {ε : Type*} (env : Env ε) (dagsFolder suffix : PathStr)

/-- The folder after a sync: the files with the suffix are those of the configs, files with other
names are untouched, files of configs are not rewritten, and a second sync changes nothing. -/
structure Synced (confs : List DagConfigEncoded) (folder folder' : Folder) : Prop where
  files : ∀ name, (∃ text writes, folder'.get name = some (.file text writes)) ∧ suffix <:+ name ↔
    ∃ c ∈ confs, name = c.dagName ++ suffix
  untouched : ∀ name, ¬ suffix <:+ name → folder'.get name = folder.get name
  kept : ∀ c ∈ confs, ∀ text writes,
    folder.get (c.dagName ++ suffix) = some (.file text writes) →
      folder'.get (c.dagName ++ suffix) = some (.file text writes)
  again : syncConfigs env dagsFolder suffix confs folder' = .ok folder'

/-- The config has its file, or its file can be written. -/
def HasFile (folder : Folder) (conf : DagConfigEncoded) : Prop :=
  match folder.get (conf.dagName ++ suffix) with
  | some (.file _ _) => True
  | some .directory => False
  | none => (∃ u, env.create (conf.dagName ++ suffix) = .ok u) ∧
      ∃ text, env.render conf.dagConfigEncoded = .ok text

/-- The condition for a sync: no path has the suffix without its file's name having it, and if there
are configs, the folder's string does not end with a slash, and each config's name is a file name
that has its file or can be written. -/
structure CanSync (confs : List DagConfigEncoded) (folder : Folder) : Prop where
  suffix_of_path : ∀ name text writes, folder.get name = some (.file text writes) →
    suffix <:+ osPathJoin dagsFolder name → suffix <:+ name
  no_slash : ∀ c ∈ confs, dagsFolder.getLast? ≠ some '/'
  isFileName : ∀ c ∈ confs, IsFileName (c.dagName ++ suffix)
  hasFile : ∀ c ∈ confs, HasFile env suffix folder c

end Spec

/-! ### Path strings -/

section Paths

variable {dagsFolder suffix dagName name : PathStr}

theorem osPathJoin_of_isFileName (hd : dagsFolder ≠ []) (h : IsFileName name) :
    osPathJoin dagsFolder name =
      if dagsFolder.getLast? = some '/' then dagsFolder ++ name else dagsFolder ++ '/' :: name := by
  have hhead : name.head? ≠ some '/' := fun hhead => h.1 (List.mem_of_head? hhead)
  rw [osPathJoin, if_neg hhead]
  simp only [hd, false_or]

theorem isPrefixOf?_append (l l' : PathStr) : l.isPrefixOf? (l ++ l') = some l' := by
  induction l with
  | nil => rfl
  | cons c l ih => simp [List.isPrefixOf?, ih]

theorem dropWhile_of_isFileName (h : IsFileName name) : name.dropWhile (· = '/') = name := by
  cases name with
  | nil => rfl
  | cons c name =>
    have hc : c ≠ '/' := fun hc => h.1 (by simp [hc])
    rw [List.dropWhile_cons_of_neg (by simpa using hc)]

/-- A file of the folder, by the path of `os.path.join`. -/
theorem entryOf_osPathJoin (hd : dagsFolder ≠ []) (h : IsFileName name) :
    entryOf dagsFolder (osPathJoin dagsFolder name) = some ⟨name, h⟩ := by
  have hname := dropWhile_of_isFileName h
  rw [osPathJoin_of_isFileName hd h, entryOf]
  split_ifs with hslash
  · rw [isPrefixOf?_append]
    dsimp only
    rw [if_pos (.inl hslash)]
    simp only [hname, h, dif_pos]
  · rw [isPrefixOf?_append]
    dsimp only
    rw [if_pos (.inr rfl), List.dropWhile_cons_of_pos (by simp)]
    simp only [hname, h, dif_pos]

/-- The file of a config, by the path of its f-string. -/
theorem entryOf_constructDagYamlPath (h : IsFileName (dagName ++ suffix)) :
    entryOf dagsFolder (constructDagYamlPath dagsFolder dagName suffix) = some ⟨_, h⟩ := by
  have hname := dropWhile_of_isFileName h
  rw [constructDagYamlPath, entryOf, isPrefixOf?_append]
  dsimp only
  rw [if_pos (.inr rfl), List.dropWhile_cons_of_pos (by simp)]
  simp only [hname, h, dif_pos]

/-- **The two path strings** of a file are equal exactly if the folder's string does not end with a
slash. -/
theorem osPathJoin_eq_constructDagYamlPath_iff (hd : dagsFolder ≠ []) (h : IsFileName name) :
    osPathJoin dagsFolder name = constructDagYamlPath dagsFolder dagName suffix ↔
      dagsFolder.getLast? ≠ some '/' ∧ name = dagName ++ suffix := by
  rw [osPathJoin_of_isFileName hd h, constructDagYamlPath]
  split_ifs with hslash
  · refine iff_of_false (fun heq => ?_) fun hne => hne.1 hslash
    have hname : name = '/' :: (dagName ++ suffix) := List.append_cancel_left heq
    exact h.1 (hname ▸ List.mem_cons_self)
  · rw [List.append_cancel_left_eq, List.cons.injEq]
    simp [hslash]

/-- A suffix of the name is a suffix of the path. -/
theorem suffix_osPathJoin (hd : dagsFolder ≠ []) (h : IsFileName name) (hs : suffix <:+ name) :
    suffix <:+ osPathJoin dagsFolder name := by
  rw [osPathJoin_of_isFileName hd h]
  split_ifs
  · exact hs.trans (List.suffix_append _ _)
  · exact (hs.trans (List.suffix_cons _ _)).trans (List.suffix_append _ _)

theorem mem_onDisc_iff {folder : Folder} {path : PathStr} :
    path ∈ onDisc dagsFolder suffix folder ↔ ∃ name text writes,
      folder.get name = some (.file text writes) ∧ suffix <:+ osPathJoin dagsFolder name ∧
        osPathJoin dagsFolder name = path := by
  simp only [onDisc, List.mem_map, List.mem_filter, Bool.and_eq_true, decide_eq_true_eq]
  constructor
  · rintro ⟨⟨name, _ | _⟩, ⟨hmem, hfile, hsuffix⟩, rfl⟩
    · exact ⟨name, _, _, Folder.get_eq_some_iff.2 hmem, hsuffix, rfl⟩
    · cases hfile
  · rintro ⟨name, text, writes, hget, hsuffix, rfl⟩
    exact ⟨(name, .file text writes), ⟨Folder.get_eq_some_iff.1 hget, rfl, hsuffix⟩, rfl⟩

end Paths

/-! ### The two steps -/

section Steps

variable {ε : Type*} {env : Env ε} {dagsFolder suffix : PathStr} {folder folder' : Folder}
  {conf : DagConfigEncoded} {confs : List DagConfigEncoded}

/-- The file of a config can be written. -/
structure Writable (env : Env ε) (suffix : PathStr) (folder : Folder) (conf : DagConfigEncoded) :
    Prop where
  renders : ∃ text, env.render conf.dagConfigEncoded = .ok text
  not_directory : folder.get (conf.dagName ++ suffix) ≠ some .directory
  creates : folder.get (conf.dagName ++ suffix) = none →
    ∃ u, env.create (conf.dagName ++ suffix) = .ok u

/-- Writing the file of one config. -/
theorem storeConfig_ok (h : IsFileName (conf.dagName ++ suffix))
    (hok : storeConfig env dagsFolder suffix folder conf = .ok folder') :
    Writable env suffix folder conf ∧
      ∃ text writes, folder' = folder.set _ h (.file text writes) := by
  unfold storeConfig write at hok
  rw [entryOf_constructDagYamlPath h] at hok
  cases hrender : env.render conf.dagConfigEncoded with
  | error e => simp [hrender, Except.bind] at hok
  | ok text =>
    cases hget : folder.get (conf.dagName ++ suffix) with
    | none =>
      cases hcreate : env.create (conf.dagName ++ suffix) with
      | error e => simp [hrender, Except.bind, hget, hcreate, Except.map] at hok
      | ok u =>
        simp only [hrender, Except.bind, hget, hcreate, Except.map, Except.ok.injEq] at hok
        exact ⟨⟨⟨text, hrender⟩, by simp [hget], fun _ => ⟨u, hcreate⟩⟩, text, 1, hok.symm⟩
    | some entry =>
      cases entry with
      | directory => simp [hrender, Except.bind, hget] at hok
      | file _ writes =>
        simp only [hrender, Except.bind, hget, Except.ok.injEq] at hok
        exact ⟨⟨⟨text, hrender⟩, by simp [hget], by simp [hget]⟩, text, writes + 1, hok.symm⟩

theorem exists_storeConfig (h : IsFileName (conf.dagName ++ suffix))
    (hw : Writable env suffix folder conf) :
    ∃ folder', storeConfig env dagsFolder suffix folder conf = .ok folder' := by
  obtain ⟨text, hrender⟩ := hw.renders
  unfold storeConfig write
  rw [entryOf_constructDagYamlPath h]
  cases hget : folder.get (conf.dagName ++ suffix) with
  | none =>
    obtain ⟨u, hcreate⟩ := hw.creates hget
    simp [hrender, Except.bind, hget, hcreate, Except.map]
  | some entry =>
    cases entry with
    | directory => exact absurd hget hw.not_directory
    | file _ writes => simp [hrender, Except.bind, hget]

/-- Configs with different names that are file names. -/
structure FileNames (suffix : PathStr) (confs : List DagConfigEncoded) : Prop where
  nodup : (confs.map DagConfigEncoded.dagName).Nodup
  isFileName : ∀ c ∈ confs, IsFileName (c.dagName ++ suffix)

theorem FileNames.of_cons (h : FileNames suffix (conf :: confs)) :
    IsFileName (conf.dagName ++ suffix) ∧ FileNames suffix confs ∧
      ∀ c ∈ confs, c.dagName ++ suffix ≠ conf.dagName ++ suffix := by
  obtain ⟨hconf, hconfs⟩ := List.forall_mem_cons.1 h.isFileName
  obtain ⟨hnot, hnodup⟩ := List.nodup_cons.1 h.nodup
  refine ⟨hconf, ⟨hnodup, hconfs⟩, fun c hc heq => hnot ?_⟩
  rw [← List.append_cancel_right heq]
  exact List.mem_map_of_mem hc

theorem Writable.set {name : PathStr} {entry : Entry} (h : IsFileName name)
    (hne : conf.dagName ++ suffix ≠ name) :
    Writable env suffix (folder.set name h entry) conf ↔ Writable env suffix folder conf := by
  have hget : (folder.set name h entry).get (conf.dagName ++ suffix) =
      folder.get (conf.dagName ++ suffix) := by rw [Folder.get_set, if_neg (Ne.symm hne)]
  constructor
  · exact fun hw => ⟨hw.renders, hget ▸ hw.not_directory, hget ▸ hw.creates⟩
  · exact fun hw => ⟨hw.renders, hget.symm ▸ hw.not_directory, hget.symm ▸ hw.creates⟩

/-- **Storing** writes the files of the configs, if it can, and no others. -/
theorem get_of_store (h : FileNames suffix confs)
    (hok : storeConfigsToYamlFiles env dagsFolder suffix confs folder = .ok folder') :
    (∀ n, (∀ c ∈ confs, n ≠ c.dagName ++ suffix) → folder'.get n = folder.get n) ∧
      ∀ c ∈ confs, Writable env suffix folder c ∧
        ∃ text writes, folder'.get (c.dagName ++ suffix) = some (.file text writes) := by
  induction confs generalizing folder with
  | nil =>
    obtain rfl := Except.ok.inj hok
    exact ⟨fun n _ => rfl, by simp⟩
  | cons conf confs ih =>
    obtain ⟨hconf, hconfs, hne⟩ := h.of_cons
    rw [storeConfigsToYamlFiles, List.foldlM_cons, bind_eq_ok_iff] at hok
    obtain ⟨folder₁, hfirst, hrest⟩ := hok
    obtain ⟨hw, text, writes, rfl⟩ := storeConfig_ok hconf hfirst
    obtain ⟨hothers, hwritten⟩ := ih hconfs hrest
    have hown : folder'.get (conf.dagName ++ suffix) = some (.file text writes) := by
      rw [hothers _ fun c hc => Ne.symm (hne c hc), Folder.get_set, if_pos rfl]
    refine ⟨fun n hn => ?_, List.forall_mem_cons.2 ⟨⟨hw, text, writes, hown⟩, fun c hc => ?_⟩⟩
    · obtain ⟨hn, hns⟩ := List.forall_mem_cons.1 hn
      rw [hothers n hns, Folder.get_set, if_neg (Ne.symm hn)]
    · obtain ⟨hcw, hcfile⟩ := hwritten c hc
      exact ⟨(Writable.set hconf (hne c hc)).1 hcw, hcfile⟩

theorem exists_store (h : FileNames suffix confs) (hw : ∀ c ∈ confs, Writable env suffix folder c) :
    ∃ folder', storeConfigsToYamlFiles env dagsFolder suffix confs folder = .ok folder' := by
  induction confs generalizing folder with
  | nil => exact ⟨folder, rfl⟩
  | cons conf confs ih =>
    obtain ⟨hconf, hconfs, hne⟩ := h.of_cons
    obtain ⟨hfirst, hrest⟩ := List.forall_mem_cons.1 hw
    obtain ⟨folder₁, hok⟩ : ∃ folder₁,
        storeConfig env dagsFolder suffix folder conf = .ok folder₁ :=
      exists_storeConfig hconf hfirst
    obtain ⟨-, text, writes, rfl⟩ := storeConfig_ok hconf hok
    obtain ⟨folder', hok'⟩ :=
      ih hconfs fun c hc => (Writable.set hconf (hne c hc)).2 (hrest c hc)
    exact ⟨folder', by rw [storeConfigsToYamlFiles, List.foldlM_cons, hok]; exact hok'⟩

/-- Deleting the file of one path. -/
theorem deleteFile_ok {name : PathStr} (hd : dagsFolder ≠ []) (h : IsFileName name)
    (hok : deleteFile env dagsFolder folder (osPathJoin dagsFolder name) = .ok folder')
    (n : PathStr) : folder'.get n = if name = n then none else folder.get n := by
  unfold deleteFile at hok
  rw [entryOf_osPathJoin hd h] at hok
  cases hget : folder.get name with
  | none =>
    simp only [hget, Except.ok.injEq] at hok
    rw [← hok]
    split_ifs with hn
    · rw [← hn, hget]
    · rfl
  | some entry =>
    cases entry with
    | directory => simp [hget] at hok
    | file _ _ =>
      simp only [hget, Except.ok.injEq] at hok
      rw [← hok, Folder.get_erase]

/-- **Deleting** removes the files of the paths, and no others. -/
theorem get_of_delete {names : List PathStr} (hd : dagsFolder ≠ [])
    (hnames : ∀ name ∈ names, IsFileName name)
    (hok : deleteFiles env dagsFolder (names.map (osPathJoin dagsFolder)) folder = .ok folder')
    (n : PathStr) : folder'.get n = if n ∈ names then none else folder.get n := by
  induction names generalizing folder with
  | nil =>
    obtain rfl := Except.ok.inj hok
    simp
  | cons name names ih =>
    obtain ⟨hname, hrest⟩ := List.forall_mem_cons.1 hnames
    rw [deleteFiles, List.map_cons, List.foldlM_cons, bind_eq_ok_iff] at hok
    obtain ⟨folder₁, hfirst, hok⟩ := hok
    rw [ih hrest hok, deleteFile_ok hd hname hfirst]
    by_cases hn : name = n
    · simp [hn]
    · simp [hn, Ne.symm hn]

theorem exists_delete {names : List PathStr} (hd : dagsFolder ≠ [])
    (hnames : ∀ name ∈ names, IsFileName name)
    (hfiles : ∀ name ∈ names, folder.get name ≠ some .directory) :
    ∃ folder', deleteFiles env dagsFolder (names.map (osPathJoin dagsFolder)) folder =
      .ok folder' := by
  induction names generalizing folder with
  | nil => exact ⟨folder, rfl⟩
  | cons name names ih =>
    obtain ⟨hname, hrest⟩ := List.forall_mem_cons.1 hnames
    obtain ⟨hfile, hfiles⟩ := List.forall_mem_cons.1 hfiles
    obtain ⟨folder₁, hok⟩ : ∃ folder₁, deleteFile env dagsFolder folder
        (osPathJoin dagsFolder name) = .ok folder₁ := by
      unfold deleteFile
      rw [entryOf_osPathJoin hd hname]
      cases hget : folder.get name with
      | none => simp [hget]
      | some entry =>
        cases entry with
        | directory => exact absurd hget hfile
        | file _ _ => simp [hget]
    have hfiles₁ : ∀ n ∈ names, folder₁.get n ≠ some .directory := by
      intro n hn
      rw [deleteFile_ok hd hname hok]
      split_ifs
      · simp
      · exact hfiles n hn
    obtain ⟨folder', hok'⟩ := ih hrest hfiles₁
    exact ⟨folder', by rw [deleteFiles, List.map_cons, List.foldlM_cons, hok]; exact hok'⟩

end Steps

/-! ### The difference -/

section Diff

variable {ε : Type*} {env : Env ε} {dagsFolder suffix : PathStr} {folder folder' : Folder}
  {confs : List DagConfigEncoded}

/-- No config has this path. -/
def NoConf (dagsFolder suffix : PathStr) (confs : List DagConfigEncoded) (path : PathStr) : Prop :=
  ∀ c ∈ confs, path ≠ constructDagYamlPath dagsFolder c.dagName suffix

/-- The names of the files to delete. -/
theorem exists_toDelete (dagsFolder suffix : PathStr) (confs : List DagConfigEncoded)
    (folder : Folder) : ∃ names : List PathStr, (∀ n ∈ names, IsFileName n) ∧
      (diff dagsFolder suffix confs folder).2 = names.map (osPathJoin dagsFolder) ∧
      ∀ n, n ∈ names ↔ (∃ text writes, folder.get n = some (.file text writes)) ∧
        suffix <:+ osPathJoin dagsFolder n ∧
          NoConf dagsFolder suffix confs (osPathJoin dagsFolder n) := by
  refine ⟨((folder.entries.filter fun p =>
      p.2.isFile && decide (suffix <:+ osPathJoin dagsFolder p.1)).map Prod.fst).filter fun n =>
        osPathJoin dagsFolder n ∉
          confs.map fun e => constructDagYamlPath dagsFolder e.dagName suffix,
    fun n hn => ?_, ?_, fun n => ?_⟩
  · obtain ⟨p, hp, rfl⟩ := List.mem_map.1 (List.mem_filter.1 hn).1
    exact folder.isFileName _ (List.mem_map_of_mem (List.mem_filter.1 hp).1)
  · simp only [diff, onDisc, List.filter_map, List.map_map, Function.comp_def]
  · simp only [List.mem_filter, List.mem_map, Bool.and_eq_true, decide_eq_true_eq, NoConf,
      not_exists, not_and, ne_comm]
    constructor
    · rintro ⟨⟨⟨_, _ | _⟩, ⟨hmem, hfile, hsuffix⟩, rfl⟩, hno⟩
      · exact ⟨⟨_, _, Folder.get_eq_some_iff.2 hmem⟩, hsuffix, hno⟩
      · cases hfile
    · rintro ⟨⟨text, writes, hget⟩, hsuffix, hno⟩
      exact ⟨⟨_, ⟨Folder.get_eq_some_iff.1 hget, rfl, hsuffix⟩, rfl⟩, hno⟩

/-- The configs whose file is not there. -/
theorem mem_toAdd_iff {conf : DagConfigEncoded} :
    conf ∈ (diff dagsFolder suffix confs folder).1 ↔
      conf ∈ confs ∧ constructDagYamlPath dagsFolder conf.dagName suffix ∉
        onDisc dagsFolder suffix folder := by
  simp [diff]

/-- The path of a config whose file is there, in a folder whose string does not end with a slash. -/
theorem mem_onDisc_of_file {conf : DagConfigEncoded} {text : List Char} {writes : ℕ}
    (hd : dagsFolder ≠ []) (hslash : dagsFolder.getLast? ≠ some '/')
    (hget : folder.get (conf.dagName ++ suffix) = some (.file text writes)) :
    constructDagYamlPath dagsFolder conf.dagName suffix ∈ onDisc dagsFolder suffix folder := by
  have hname := Folder.isFileName_of_get hget
  exact mem_onDisc_iff.2 ⟨_, text, writes, hget,
    suffix_osPathJoin hd hname (List.suffix_append _ _),
    (osPathJoin_eq_constructDagYamlPath_iff hd hname).2 ⟨hslash, rfl⟩⟩

/-- A config whose path is there has its file. -/
theorem file_of_mem_onDisc {conf : DagConfigEncoded} (hd : dagsFolder ≠ [])
    (h : constructDagYamlPath dagsFolder conf.dagName suffix ∈ onDisc dagsFolder suffix folder) :
    ∃ text writes, folder.get (conf.dagName ++ suffix) = some (.file text writes) := by
  obtain ⟨name, text, writes, hget, -, heq⟩ := mem_onDisc_iff.1 h
  obtain ⟨-, rfl⟩ :=
    (osPathJoin_eq_constructDagYamlPath_iff hd (Folder.isFileName_of_get hget)).1 heq
  exact ⟨text, writes, hget⟩

theorem syncConfigs_eq_ok_iff : syncConfigs env dagsFolder suffix confs folder = .ok folder' ↔
    ∃ folder₁, storeConfigsToYamlFiles env dagsFolder suffix (diff dagsFolder suffix confs folder).1
        folder = .ok folder₁ ∧
      deleteFiles env dagsFolder (diff dagsFolder suffix confs folder).2 folder₁ = .ok folder' :=
  bind_eq_ok_iff

/-- What is deleted is gone after the sync. -/
theorem get_of_sync (hd : dagsFolder ≠ [])
    (hok : syncConfigs env dagsFolder suffix confs folder = .ok folder') {n : PathStr}
    (hn : ∃ text writes, folder.get n = some (.file text writes))
    (hsuffix : suffix <:+ osPathJoin dagsFolder n)
    (hno : NoConf dagsFolder suffix confs (osPathJoin dagsFolder n)) : folder'.get n = none := by
  obtain ⟨names, hnames, hdiff, hmem⟩ := exists_toDelete dagsFolder suffix confs folder
  obtain ⟨folder₁, -, hdelete⟩ := syncConfigs_eq_ok_iff.1 hok
  rw [hdiff] at hdelete
  rw [get_of_delete hd hnames hdelete, if_pos ((hmem n).2 ⟨hn, hsuffix, hno⟩)]

end Diff

/-! ### When syncing works -/

section Main

variable {ε : Type*} {env : Env ε} {dagsFolder suffix : PathStr} {folder folder' : Folder}
  {confs : List DagConfigEncoded}

/-- A sync that makes the files those of the configs meets the condition. -/
theorem CanSync.of_synced (hd : dagsFolder ≠ [])
    (hnodup : (confs.map DagConfigEncoded.dagName).Nodup)
    (hok : syncConfigs env dagsFolder suffix confs folder = .ok folder')
    (h : Synced env dagsFolder suffix confs folder folder') :
    CanSync env dagsFolder suffix confs folder := by
  have hfile : ∀ c ∈ confs,
      ∃ text writes, folder'.get (c.dagName ++ suffix) = some (.file text writes) :=
    fun c hc => ((h.files _).2 ⟨c, hc, rfl⟩).1
  have hname : ∀ c ∈ confs, IsFileName (c.dagName ++ suffix) := fun c hc => by
    obtain ⟨text, writes, hget⟩ := hfile c hc
    exact Folder.isFileName_of_get hget
  have hslash : ∀ c ∈ confs, dagsFolder.getLast? ≠ some '/' := by
    -- with a slash at the end, a second sync deletes the config's file
    intro c hc hslash
    have hgone := get_of_sync hd h.again (hfile c hc)
      (suffix_osPathJoin hd (hname c hc) (List.suffix_append _ _)) fun c' _ heq =>
        ((osPathJoin_eq_constructDagYamlPath_iff hd (hname c hc)).1 heq).1 hslash
    obtain ⟨text, writes, hget⟩ := hfile c hc
    rw [hgone] at hget
    cases hget
  refine ⟨fun n text writes hget hsuffix => ?_, hslash, hname, fun c hc => ?_⟩
  · -- a file without the suffix would be deleted
    by_contra hnot
    have hgone := get_of_sync hd hok ⟨text, writes, hget⟩ hsuffix fun c _ heq => by
      obtain ⟨-, rfl⟩ :=
        (osPathJoin_eq_constructDagYamlPath_iff hd (Folder.isFileName_of_get hget)).1 heq
      exact hnot (List.suffix_append _ _)
    rw [h.untouched n hnot, hget] at hgone
    cases hgone
  · obtain ⟨folder₁, hstore, -⟩ := syncConfigs_eq_ok_iff.1 hok
    have hnames : FileNames suffix (diff dagsFolder suffix confs folder).1 := by
      refine ⟨hnodup.sublist (List.filter_sublist.map _), fun c hc => ?_⟩
      exact hname c (mem_toAdd_iff.1 hc).1
    have hadd : (∀ text writes, folder.get (c.dagName ++ suffix) ≠ some (.file text writes)) →
        Writable env suffix folder c := fun hnot =>
      ((get_of_store hnames hstore).2 c (mem_toAdd_iff.2 ⟨hc, fun hmem => by
        obtain ⟨text, writes, hget⟩ := file_of_mem_onDisc hd hmem
        exact hnot text writes hget⟩)).1
    unfold HasFile
    cases hget : folder.get (c.dagName ++ suffix) with
    | none =>
      have hw := hadd fun text writes => by simp [hget]
      exact ⟨hw.creates hget, hw.renders⟩
    | some entry =>
      cases entry with
      | file _ _ => trivial
      | directory => exact (hadd fun text writes => by simp [hget]).not_directory hget

/-- What a sync does to every name: the configs have their files, those that had one have the same,
the other files with the suffix are gone, and nothing else changes. -/
structure SyncResult (suffix : PathStr) (confs : List DagConfigEncoded) (folder folder' : Folder) :
    Prop where
  conf : ∀ c ∈ confs,
    ∃ text writes, folder'.get (c.dagName ++ suffix) = some (.file text writes)
  kept : ∀ c ∈ confs, ∀ text writes,
    folder.get (c.dagName ++ suffix) = some (.file text writes) →
      folder'.get (c.dagName ++ suffix) = some (.file text writes)
  gone : ∀ n, (∀ c ∈ confs, n ≠ c.dagName ++ suffix) → suffix <:+ n →
    ∀ text writes, folder.get n = some (.file text writes) → folder'.get n = none
  same : ∀ n, (∀ c ∈ confs, n ≠ c.dagName ++ suffix) →
    (suffix <:+ n → ∀ text writes, folder.get n ≠ some (.file text writes)) →
      folder'.get n = folder.get n

/-- What is written is the file of a config that has none. -/
theorem CanSync.of_mem_toAdd (hd : dagsFolder ≠ [])
    (h : CanSync env dagsFolder suffix confs folder) {c : DagConfigEncoded}
    (hc : c ∈ (diff dagsFolder suffix confs folder).1) :
    c ∈ confs ∧ ∀ text writes, folder.get (c.dagName ++ suffix) ≠ some (.file text writes) := by
  obtain ⟨hc, hnot⟩ := mem_toAdd_iff.1 hc
  exact ⟨hc, fun text writes hget => hnot (mem_onDisc_of_file hd (h.no_slash c hc) hget)⟩

/-- Under the condition, what is written can be. -/
theorem CanSync.writable_of_mem_toAdd (hd : dagsFolder ≠ [])
    (h : CanSync env dagsFolder suffix confs folder) {c : DagConfigEncoded}
    (hc : c ∈ (diff dagsFolder suffix confs folder).1) : Writable env suffix folder c := by
  obtain ⟨hc, hnot⟩ := h.of_mem_toAdd hd hc
  have hfile := h.hasFile c hc
  unfold HasFile at hfile
  cases hget : folder.get (c.dagName ++ suffix) with
  | none =>
    rw [hget] at hfile
    exact ⟨hfile.2, by simp [hget], fun _ => hfile.1⟩
  | some entry =>
    rw [hget] at hfile
    cases entry with
    | file text writes => exact absurd hget (hnot text writes)
    | directory => exact hfile.elim

/-- Under the condition, nothing raises. -/
theorem CanSync.exists_result (hd : dagsFolder ≠ [])
    (hnodup : (confs.map DagConfigEncoded.dagName).Nodup)
    (h : CanSync env dagsFolder suffix confs folder) :
    ∃ folder', syncConfigs env dagsFolder suffix confs folder = .ok folder' ∧
      SyncResult suffix confs folder folder' := by
  obtain ⟨toDelete, hdeleteNames, hdiff, hdelete⟩ := exists_toDelete dagsFolder suffix confs folder
  have hadd := fun c => h.of_mem_toAdd (c := c) hd
  have hnames : FileNames suffix (diff dagsFolder suffix confs folder).1 :=
    ⟨hnodup.sublist (List.filter_sublist.map _), fun c hc => h.isFileName c (hadd c hc).1⟩
  have hwritable := fun c => h.writable_of_mem_toAdd (c := c) hd
  obtain ⟨folder₁, hstore⟩ : ∃ folder₁, storeConfigsToYamlFiles env dagsFolder suffix
      (diff dagsFolder suffix confs folder).1 folder = .ok folder₁ :=
    exists_store hnames hwritable
  obtain ⟨hothers, hwritten⟩ := get_of_store hnames hstore
  -- what is deleted is no file of a config
  have hconf : ∀ c ∈ confs, c.dagName ++ suffix ∉ toDelete := fun c hc hmem =>
    ((hdelete _).1 hmem).2.2 c hc ((osPathJoin_eq_constructDagYamlPath_iff hd
      (h.isFileName c hc)).2 ⟨h.no_slash c hc, rfl⟩)
  have hkept : ∀ n ∈ toDelete, folder₁.get n = folder.get n := fun n hn =>
    hothers n fun c hc heq => hconf c (hadd c hc).1 (heq ▸ hn)
  have hfiles : ∀ n ∈ toDelete, folder₁.get n ≠ some .directory := by
    intro n hn
    obtain ⟨⟨text, writes, hget⟩, -⟩ := (hdelete n).1 hn
    rw [hkept n hn, hget]
    simp
  obtain ⟨folder', hdeleted⟩ : ∃ folder', deleteFiles env dagsFolder
      (toDelete.map (osPathJoin dagsFolder)) folder₁ = .ok folder' :=
    exists_delete hd hdeleteNames hfiles
  have hget := get_of_delete hd hdeleteNames hdeleted
  have hkeep : ∀ c ∈ confs, ∀ text writes,
      folder.get (c.dagName ++ suffix) = some (.file text writes) →
        folder'.get (c.dagName ++ suffix) = some (.file text writes) := by
    intro c hc text writes hfile
    rw [hget, if_neg (hconf c hc), hothers _ fun c' hc' heq => ?_, hfile]
    exact (hadd c' hc').2 text writes (heq ▸ hfile)
  refine ⟨folder', ?_, fun c hc => ?_, hkeep, fun n hn hsuffix text writes hfile => ?_,
    fun n hn hnot => ?_⟩
  · exact syncConfigs_eq_ok_iff.2 ⟨folder₁, hstore, by rwa [hdiff]⟩
  · by_cases hmem : c ∈ (diff dagsFolder suffix confs folder).1
    · rw [hget, if_neg (hconf c hc)]
      exact (hwritten c hmem).2
    · rw [mem_toAdd_iff, and_iff_right hc, not_not] at hmem
      obtain ⟨text, writes, hfile⟩ := file_of_mem_onDisc hd hmem
      exact ⟨text, writes, hkeep c hc text writes hfile⟩
  · have hname := Folder.isFileName_of_get hfile
    rw [hget, if_pos ((hdelete n).2 ⟨⟨text, writes, hfile⟩, suffix_osPathJoin hd hname hsuffix,
      fun c hc heq => hn c hc ((osPathJoin_eq_constructDagYamlPath_iff hd hname).1 heq).2⟩)]
  · have hmem : n ∉ toDelete := fun hmem => by
      obtain ⟨⟨text, writes, hfile⟩, hsuffix, -⟩ := (hdelete n).1 hmem
      exact hnot (h.suffix_of_path n text writes hfile hsuffix) text writes hfile
    rw [hget, if_neg hmem, hothers n fun c hc => hn c (hadd c hc).1]

/-- Behind such a sync, a second one has nothing to do. -/
theorem SyncResult.again (hd : dagsFolder ≠ []) (h : CanSync env dagsFolder suffix confs folder)
    (hresult : SyncResult suffix confs folder folder') :
    syncConfigs env dagsFolder suffix confs folder' = .ok folder' := by
  obtain ⟨toDelete, -, hdiff, hdelete⟩ := exists_toDelete dagsFolder suffix confs folder'
  have hadd : (diff dagsFolder suffix confs folder').1 = [] := by
    refine List.eq_nil_iff_forall_not_mem.2 fun c hc => ?_
    obtain ⟨hc, hnot⟩ := mem_toAdd_iff.1 hc
    obtain ⟨text, writes, hget⟩ := hresult.conf c hc
    exact hnot (mem_onDisc_of_file hd (h.no_slash c hc) hget)
  have hnone : toDelete = [] := by
    refine List.eq_nil_iff_forall_not_mem.2 fun n hn => ?_
    obtain ⟨⟨text, writes, hget⟩, hsuffix, hno⟩ := (hdelete n).1 hn
    have hother : ∀ c ∈ confs, n ≠ c.dagName ++ suffix := fun c hc heq =>
      hno c hc ((osPathJoin_eq_constructDagYamlPath_iff hd (Folder.isFileName_of_get hget)).2
        ⟨h.no_slash c hc, heq⟩)
    have hsame := hresult.same n hother fun hsuffix text' writes' hget' => by
      rw [hresult.gone n hother hsuffix text' writes' hget'] at hget
      cases hget
    rw [hsame] at hget
    have hends := h.suffix_of_path n text writes hget hsuffix
    have hgone := hresult.gone n hother hends text writes hget
    rw [hsame, hget] at hgone
    cases hgone
  refine syncConfigs_eq_ok_iff.2 ⟨folder', by rw [hadd]; rfl, ?_⟩
  rw [hdiff, hnone]
  rfl

/-- Under the condition, a sync makes the files those of the configs. -/
theorem CanSync.synced (hd : dagsFolder ≠ []) (h : CanSync env dagsFolder suffix confs folder)
    (hresult : SyncResult suffix confs folder folder') :
    Synced env dagsFolder suffix confs folder folder' where
  files n := by
    constructor
    · rintro ⟨⟨text, writes, hget⟩, hsuffix⟩
      by_contra hnot
      have hother : ∀ c ∈ confs, n ≠ c.dagName ++ suffix := fun c hc heq => hnot ⟨c, hc, heq⟩
      have hfile : ∀ text writes, folder.get n ≠ some (.file text writes) :=
        fun text' writes' hget' => by
          rw [hresult.gone n hother hsuffix text' writes' hget'] at hget
          cases hget
      rw [hresult.same n hother fun _ => hfile] at hget
      exact hfile text writes hget
    · rintro ⟨c, hc, rfl⟩
      exact ⟨hresult.conf c hc, List.suffix_append _ _⟩
  untouched n hnot :=
    hresult.same n (fun c _ heq => hnot (heq ▸ List.suffix_append _ _)) fun hs => absurd hs hnot
  kept := hresult.kept
  again := hresult.again hd h

/-- **Syncing makes the files those of the configs**, and once is enough, exactly if the condition
is met. -/
theorem synced_iff (hd : dagsFolder ≠ [])
    (hnodup : (confs.map DagConfigEncoded.dagName).Nodup) :
    (∃ folder', syncConfigs env dagsFolder suffix confs folder = .ok folder' ∧
        Synced env dagsFolder suffix confs folder folder') ↔
      CanSync env dagsFolder suffix confs folder := by
  constructor
  · rintro ⟨folder', hok, h⟩
    exact .of_synced hd hnodup hok h
  · intro h
    obtain ⟨folder', hok, hresult⟩ := h.exists_result hd hnodup
    exact ⟨folder', hok, h.synced hd hresult⟩

end Main

/-- A file system with room, and the rendering of one config. -/
def sampleEnv : Env String where
  render encoded :=
    if encoded = "eyJhIjogMSwgImIiOiAyfQ==".toList then .ok "a: 1\nb: 2\n".toList
    else .error "binascii.Error"
  create _ := .ok ()
  isADirectory := "IsADirectoryError"
  writeElsewhere _ _ folder := .ok folder
  removeElsewhere _ folder := .ok folder

/-- The config `{'a': 1, 'b': 2}`. -/
def sampleDag : DagConfigEncoded :=
  ⟨"sample_dag".toList, "eyJhIjogMSwgImIiOiAyfQ==".toList⟩

/-- A folder with one dag file. -/
def sampleFolder (dagName : PathStr) (h : IsFileName (dagName ++ ".yaml".toList)) : Folder where
  entries := [(dagName ++ ".yaml".toList, .file "a: 1\nb: 2\n".toList 1)]
  nodup := List.nodup_singleton _
  isFileName := by simpa using h

/-- The file of an old dag is replaced by that of a new one. -/
theorem synced_oldDag : ∃ folder', syncConfigs sampleEnv "/dags".toList ".yaml".toList [sampleDag]
      (sampleFolder "old_dag".toList (by decide +kernel)) = .ok folder' ∧
    Synced sampleEnv "/dags".toList ".yaml".toList [sampleDag]
      (sampleFolder "old_dag".toList (by decide +kernel)) folder' := by
  refine (synced_iff (by decide +kernel) (by decide +kernel)).2
    ⟨fun name text writes hget _ => ?_, by decide +kernel, by decide +kernel, fun c hc => ?_⟩
  · have hmem := Folder.get_eq_some_iff.1 hget
    rw [sampleFolder, List.mem_singleton, Prod.mk.injEq] at hmem
    rw [hmem.1]
    exact List.suffix_append _ _
  · rw [List.mem_singleton.1 hc]
    exact ⟨⟨(), rfl⟩, _, rfl⟩

/-- With a slash at the end of the folder's string, the file of a dag is deleted. -/
theorem not_synced_slash : ¬ ∃ folder', syncConfigs sampleEnv "/dags/".toList ".yaml".toList
      [sampleDag] (sampleFolder "sample_dag".toList (by decide +kernel)) = .ok folder' ∧
    Synced sampleEnv "/dags/".toList ".yaml".toList [sampleDag]
      (sampleFolder "sample_dag".toList (by decide +kernel)) folder' := by
  rintro ⟨folder', hok, h⟩
  have hgone : syncConfigs sampleEnv "/dags/".toList ".yaml".toList [sampleDag]
      (sampleFolder "sample_dag".toList (by decide +kernel)) =
        .ok ⟨[], List.nodup_nil, by simp⟩ := by decide +kernel
  rw [hgone] at hok
  have hkept := h.kept sampleDag List.mem_cons_self "a: 1\nb: 2\n".toList 1 (by decide +kernel)
  rw [← Except.ok.inj hok] at hkept
  cases hkept

end Airflow

end Svoe
