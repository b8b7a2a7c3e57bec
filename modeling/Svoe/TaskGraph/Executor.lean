import Svoe.Common.Dict
import Svoe.Common.Frame
import Svoe.Transition.Basic
import Mathlib.Data.List.Induction

/-!
# Executing the nodes of a task graph

`execute_flattened_nodes` starts the nodes of a list one after the other, never more than
`parallelism` at a time, and moves the refs that `ray.wait` reports as ready from the dictionary
of executing refs to the dictionary of results.  Which refs are ready is up to Ray: the answers of
`ray.wait` are the actions of the transition system `step`.

* `exists_foldlM_fileRef` : whatever `ray.wait` reports can be filed without a `KeyError`.
* `Filing.of_step` : what has been filed, together with what is in flight, is what has been started.
* `execution_run` : in every reachable state at most `parallelism` refs are in flight and `ray.wait`
  never gets an empty list; in the end every node was executed once and filed once under its key.
-/

namespace Svoe

open Transition

variable {κ ν : Type*}

/-- The ref of a started task: the number of tasks started before it, and its node. -/
structure ObjectRef (ν : Type*) where
  call : ℕ
  node : ν
  deriving DecidableEq, Repr

/-- The locals of `execute_flattened_nodes`, and the nodes executed so far. -/
structure Execution (κ ν : Type*) where
  i : ℕ
  executing : List (κ × List (ObjectRef ν))
  results : List (κ × List (ObjectRef ν))
  executed : List ν

/-- `flatten`. -/
def flattenRefs (refs : List (κ × List (ObjectRef ν))) : List (ObjectRef ν) :=
  refs.flatMap Prod.snd

section Code

variable [DecidableEq κ] [DecidableEq ν]

/-- `get_key_by_ref`. -/
def getKeyByRef (ref : ObjectRef ν) (d : List (κ × List (ObjectRef ν))) : Option κ :=
  (d.find? fun p => ref ∈ p.2).map Prod.fst

/-- `if key in d: d[key].append(ref)`, `else: d[key] = [ref]`. -/
def appendRef (d : List (κ × List (ObjectRef ν))) (key : κ) (ref : ObjectRef ν) :
    List (κ × List (ObjectRef ν)) :=
  dictSet d key ((dictGet d key).getD [] ++ [ref])

/-- The start of a node, unless `parallelism` tasks are executing. -/
def schedule (parallelism : ℕ) (s : Execution κ ν) (p : κ × ν) : Execution κ ν :=
  if (s.executing.map fun q => q.2.length).sum < parallelism then
    { s with
      i := s.i + 1
      executing := appendRef s.executing p.1 ⟨s.executed.length, p.2⟩
      executed := s.executed ++ [p.2] }
  else s

/-- The state at the next `ray.wait`, as long as one of the two loops goes on. -/
def atWait (nodes : List (κ × ν)) (parallelism : ℕ) (s : Execution κ ν) :
    Option (Execution κ ν) :=
  match nodes[s.i]? with
  | some p => some (schedule parallelism s p)
  | none => if flattenRefs s.executing = [] then none else some s

/-- The body of `for ref in ready`. -/
def fileRef (s : Execution κ ν) (ref : ObjectRef ν) : Except PyError (Execution κ ν) :=
  match getKeyByRef ref s.executing with
  | none => .error (.key "None")
  | some key => .ok
    { s with
      results := appendRef s.results key ref
      executing := dictSet s.executing key (((dictGet s.executing key).getD []).erase ref) }

/-- A round of the loops in which `ray.wait` reports the refs `ready`, some of those it got. -/
def step (nodes : List (κ × ν)) (parallelism : ℕ) (s : Execution κ ν)
    (ready : List (ObjectRef ν)) : Option (Execution κ ν) :=
  match atWait nodes parallelism s with
  | none => none
  | some t =>
    if ready.Nodup ∧ ∀ ref ∈ ready, ref ∈ flattenRefs t.executing then
      (ready.foldlM fileRef t).toOption
    else none

/-- `execute_flattened_nodes` before its loops. -/
def Execution.init (executed : List ν) : Execution κ ν := ⟨0, [], [], executed⟩

end Code

/-! ### Refs and their keys -/

/-- The refs of a dictionary with the keys they are filed under. -/
def entries (d : List (κ × List (ObjectRef ν))) : List (κ × ObjectRef ν) :=
  d.flatMap fun p => p.2.map fun ref => (p.1, ref)

/-- The refs of nodes that are started in order, the first of them after `start` other ones. -/
def refsFrom (start : ℕ) (nodes : List (κ × ν)) : List (κ × ObjectRef ν) :=
  (nodes.zipIdx start).map fun p => (p.1.1, ⟨p.2, p.1.2⟩)

theorem map_snd_entries (d : List (κ × List (ObjectRef ν))) :
    (entries d).map Prod.snd = flattenRefs d := by
  rw [entries, flattenRefs, List.map_flatMap]
  congr 1
  funext p
  simp

theorem length_flattenRefs (d : List (κ × List (ObjectRef ν))) :
    (flattenRefs d).length = (d.map fun p => p.2.length).sum := List.length_flatMap

theorem entries_append_cons (d d' : List (κ × List (ObjectRef ν))) (k : κ)
    (refs : List (ObjectRef ν)) :
    entries (d ++ (k, refs) :: d') = entries d ++ (refs.map (Prod.mk k) ++ entries d') := by
  simp [entries]

theorem mem_refsFrom {start : ℕ} {nodes : List (κ × ν)} {k : κ} {ref : ObjectRef ν} :
    (k, ref) ∈ refsFrom start nodes ↔
      start ≤ ref.call ∧ nodes[ref.call - start]? = some (k, ref.node) := by
  simp only [refsFrom, List.mem_map, List.mem_zipIdx_iff_le_and_getElem?_sub, Prod.exists]
  constructor
  · rintro ⟨k', n, j, ⟨hle, hj⟩, heq⟩
    obtain ⟨rfl, rfl⟩ := Prod.mk.inj heq
    exact ⟨hle, hj⟩
  · rintro ⟨hle, hj⟩
    exact ⟨k, ref.node, ref.call, ⟨hle, hj⟩, rfl⟩

theorem refsFrom_append (start : ℕ) (nodes nodes' : List (κ × ν)) :
    refsFrom start (nodes ++ nodes') =
      refsFrom start nodes ++ refsFrom (start + nodes.length) nodes' := by
  rw [refsFrom, List.zipIdx_append, List.map_append]
  rfl

theorem map_fst_refsFrom (start : ℕ) (nodes : List (κ × ν)) :
    (refsFrom start nodes).map Prod.fst = nodes.map Prod.fst := by
  rw [refsFrom, List.map_map]
  conv_rhs => rw [← List.zipIdx_map_fst start nodes, List.map_map]
  rfl

/-- Different tasks have different refs. -/
theorem nodup_map_snd_refsFrom (start : ℕ) (nodes : List (κ × ν)) :
    ((refsFrom start nodes).map Prod.snd).Nodup := by
  refine List.Nodup.of_map ObjectRef.call ?_
  rw [refsFrom, List.map_map, List.map_map]
  have : (nodes.zipIdx start).map Prod.snd = List.range' start nodes.length :=
    List.zipIdx_map_snd start nodes
  exact this ▸ List.nodup_range'

variable [DecidableEq κ] [DecidableEq ν]

omit [DecidableEq ν] in
/-- Appending a ref files it, and nothing else. -/
theorem perm_entries_appendRef (d : List (κ × List (ObjectRef ν))) (key : κ)
    (ref : ObjectRef ν) : (entries (appendRef d key ref)).Perm ((key, ref) :: entries d) := by
  by_cases hkey : key ∈ d.map Prod.fst
  · obtain ⟨l, refs, l', rfl, hl⟩ := exists_eq_append_cons hkey
    rw [appendRef, dictGet_append_cons hl, dictSet_append_cons hl, Option.getD_some,
      entries_append_cons, entries_append_cons, List.map_append, List.append_assoc,
      ← List.append_assoc (entries l), ← List.append_assoc (entries l)]
    exact List.perm_middle
  · rw [appendRef, dictGet_eq_none_iff.2 hkey, dictSet_of_not_mem hkey, entries_append_cons]
    exact List.perm_append_comm

/-- Removing a ref from the list of its key takes it out, and nothing else. -/
theorem exists_perm_entries_remove {d : List (κ × List (ObjectRef ν))}
    (hd : (d.map Prod.fst).Nodup) {ref : ObjectRef ν} (href : ref ∈ flattenRefs d) :
    ∃ key, getKeyByRef ref d = some key ∧
      (entries d).Perm
        ((key, ref) :: entries (dictSet d key (((dictGet d key).getD []).erase ref))) := by
  obtain ⟨p, hp, hrefp⟩ := List.mem_flatMap.1 href
  obtain ⟨q, hq⟩ : ∃ q, d.find? (fun p => ref ∈ p.2) = some q := by
    rw [← Option.isSome_iff_exists, List.find?_isSome]
    exact ⟨p, hp, decide_eq_true hrefp⟩
  refine ⟨q.1, by rw [getKeyByRef, hq]; rfl, ?_⟩
  have hrefq : ref ∈ q.2 := by simpa using List.find?_some hq
  obtain ⟨l, l', rfl⟩ := List.append_of_mem (List.mem_of_find?_eq_some hq)
  have hl : q.1 ∉ l.map Prod.fst := by
    rw [List.map_append, List.map_cons, List.nodup_middle] at hd
    exact fun hm => (List.nodup_cons.1 hd).1 (List.mem_append_left _ hm)
  rw [dictGet_append_cons hl, dictSet_append_cons hl, Option.getD_some, entries_append_cons,
    entries_append_cons]
  have hperm : (q.2.map (Prod.mk q.1)).Perm
      ((q.1, ref) :: (q.2.erase ref).map (Prod.mk q.1)) :=
    (List.perm_cons_erase hrefq).map _
  exact ((hperm.append_right _).append_left _).trans List.perm_middle

/-! ### What is filed -/

/-- The results once the refs of `filed` have been filed, one after the other. -/
def resultsOf (filed : List (κ × ObjectRef ν)) : List (κ × List (ObjectRef ν)) :=
  filed.foldl (fun d p => appendRef d p.1 p.2) []

omit [DecidableEq ν] in
theorem resultsOf_append_singleton (filed : List (κ × ObjectRef ν)) (p : κ × ObjectRef ν) :
    resultsOf (filed ++ [p]) = appendRef (resultsOf filed) p.1 p.2 := by
  rw [resultsOf, List.foldl_append]
  rfl

omit [DecidableEq ν] in
theorem perm_entries_resultsOf (filed : List (κ × ObjectRef ν)) :
    (entries (resultsOf filed)).Perm filed := by
  induction filed using List.reverseRecOn with
  | nil => exact .refl _
  | append_singleton filed p ih =>
    rw [resultsOf_append_singleton]
    exact ((perm_entries_appendRef _ _ _).trans (ih.cons p)).trans
      (List.perm_append_singleton p filed).symm

omit [DecidableEq ν] in
theorem nodup_keys_resultsOf (filed : List (κ × ObjectRef ν)) :
    ((resultsOf filed).map Prod.fst).Nodup := by
  induction filed using List.reverseRecOn with
  | nil => exact List.nodup_nil
  | append_singleton filed p ih =>
    rw [resultsOf_append_singleton]
    exact nodup_keys_dictSet ih _ _

/-- A state of `execute_flattened_nodes` in which the refs of `filed` have been filed: these and
the refs in flight are those of the nodes started so far. -/
structure Filing (nodes : List (κ × ν)) (parallelism : ℕ) (executed : List ν)
    (filed : List (κ × ObjectRef ν)) (s : Execution κ ν) : Prop where
  results_eq : s.results = resultsOf filed
  le_length : s.i ≤ nodes.length
  executed_eq : s.executed = executed ++ (nodes.take s.i).map Prod.snd
  perm : (filed ++ entries s.executing).Perm (refsFrom executed.length (nodes.take s.i))
  bounded : (flattenRefs s.executing).length ≤ parallelism
  nodup_keys : (s.executing.map Prod.fst).Nodup

variable {nodes : List (κ × ν)} {parallelism : ℕ} {executed : List ν}
  {filed : List (κ × ObjectRef ν)} {s t : Execution κ ν}

omit [DecidableEq ν] in
theorem Filing.init (nodes : List (κ × ν)) (parallelism : ℕ) (executed : List ν) :
    Filing nodes parallelism executed [] (.init executed) where
  results_eq := rfl
  le_length := Nat.zero_le _
  executed_eq := by simp [Execution.init]
  perm := .refl _
  bounded := Nat.zero_le _
  nodup_keys := List.nodup_nil

omit [DecidableEq ν] in
/-- The refs in flight are different. -/
theorem Filing.nodup_flattenRefs (h : Filing nodes parallelism executed filed s) :
    (flattenRefs s.executing).Nodup := by
  have hall : ((filed ++ entries s.executing).map Prod.snd).Nodup :=
    (h.perm.map Prod.snd).nodup_iff.2 (nodup_map_snd_refsFrom _ _)
  rw [List.map_append, map_snd_entries] at hall
  exact (List.nodup_append.1 hall).2.1

omit [DecidableEq ν] in
theorem Filing.of_schedule (h : Filing nodes parallelism executed filed s) {p : κ × ν}
    (hp : nodes[s.i]? = some p) :
    Filing nodes parallelism executed filed (schedule parallelism s p) := by
  unfold schedule
  split_ifs with hlt
  · obtain ⟨hi, hget⟩ := List.getElem?_eq_some_iff.1 hp
    have htake : nodes.take (s.i + 1) = nodes.take s.i ++ [p] := by
      rw [List.take_add_one, hp]
      rfl
    have hlen : s.executed.length = executed.length + (nodes.take s.i).length := by
      rw [h.executed_eq, List.length_append, List.length_map]
    have hperm := perm_entries_appendRef s.executing p.1 ⟨s.executed.length, p.2⟩
    refine ⟨h.results_eq, hi, ?_, ?_, ?_, nodup_keys_dictSet h.nodup_keys _ _⟩
    · rw [htake, List.map_append, ← List.append_assoc, ← h.executed_eq]
      rfl
    · rw [htake, refsFrom_append, ← hlen]
      refine (hperm.append_left filed).trans (List.perm_middle.trans ?_)
      exact (h.perm.cons _).trans (List.perm_append_singleton _ _).symm
    · rw [← map_snd_entries, List.length_map, hperm.length_eq, List.length_cons,
        ← List.length_map (f := Prod.snd), map_snd_entries, length_flattenRefs]
      exact hlt
  · exact h

omit [DecidableEq ν] in
theorem Filing.of_atWait (h : Filing nodes parallelism executed filed s)
    (ht : atWait nodes parallelism s = some t) : Filing nodes parallelism executed filed t := by
  unfold atWait at ht
  split at ht
  · next p hp =>
    obtain rfl := Option.some.inj ht
    exact h.of_schedule hp
  · split_ifs at ht
    obtain rfl := Option.some.inj ht
    exact h

theorem fileRef_of_getKeyByRef {ref : ObjectRef ν} {key : κ}
    (hkey : getKeyByRef ref s.executing = some key) :
    fileRef s ref = .ok
      { s with
        results := appendRef s.results key ref
        executing := dictSet s.executing key (((dictGet s.executing key).getD []).erase ref) } := by
  rw [fileRef, hkey]

/-- Filing a ref that is in flight. -/
theorem Filing.exists_fileRef (h : Filing nodes parallelism executed filed s)
    {ref : ObjectRef ν} (href : ref ∈ flattenRefs s.executing) :
    ∃ key s', fileRef s ref = .ok s' ∧
      Filing nodes parallelism executed (filed ++ [(key, ref)]) s' ∧
      (flattenRefs s.executing).Perm (ref :: flattenRefs s'.executing) := by
  obtain ⟨key, hkey, hperm⟩ := exists_perm_entries_remove h.nodup_keys href
  have hflat := hperm.map Prod.snd
  rw [List.map_cons, map_snd_entries, map_snd_entries] at hflat
  refine ⟨key, _, fileRef_of_getKeyByRef hkey, ⟨?_, h.le_length, h.executed_eq, ?_, ?_, ?_⟩,
    hflat⟩
  · rw [resultsOf_append_singleton, h.results_eq]
  · rw [List.append_assoc]
    exact (hperm.symm.append_left filed).trans h.perm
  · exact (Nat.le_succ _).trans (hflat.length_eq.ge.trans h.bounded)
  · exact nodup_keys_dictSet h.nodup_keys _ _

/-- **Whatever `ray.wait` reports can be filed**, and is filed in that order. -/
theorem exists_foldlM_fileRef (h : Filing nodes parallelism executed filed s)
    {ready : List (ObjectRef ν)} (hnodup : ready.Nodup)
    (hready : ∀ ref ∈ ready, ref ∈ flattenRefs s.executing) :
    ∃ new s', ready.foldlM fileRef s = .ok s' ∧ new.map Prod.snd = ready ∧
      Filing nodes parallelism executed (filed ++ new) s' := by
  induction ready generalizing s filed with
  | nil => exact ⟨[], s, rfl, rfl, by rwa [List.append_nil]⟩
  | cons ref ready ih =>
    obtain ⟨hnot, hnodup⟩ := List.nodup_cons.1 hnodup
    obtain ⟨key, s', hs', hfiling, hperm⟩ := h.exists_fileRef (hready ref List.mem_cons_self)
    obtain ⟨new, s'', hs'', hnew, hfiling''⟩ := ih hfiling hnodup fun r hr => by
      have hmem := hperm.mem_iff.1 (hready r (List.mem_cons_of_mem _ hr))
      exact (List.mem_cons.1 hmem).resolve_left fun heq => hnot (heq ▸ hr)
    refine ⟨(key, ref) :: new, s'', ?_, by rw [List.map_cons, hnew], ?_⟩
    · rw [List.foldlM_cons, hs']
      exact hs''
    · rwa [List.append_assoc] at hfiling''

/-- A round of the loops files what `ray.wait` reports. -/
theorem Filing.of_step (h : Filing nodes parallelism executed filed s)
    {ready : List (ObjectRef ν)} {s' : Execution κ ν}
    (hs' : step nodes parallelism s ready = some s') :
    ∃ new, new.map Prod.snd = ready ∧ Filing nodes parallelism executed (filed ++ new) s' := by
  unfold step at hs'
  split at hs'
  · cases hs'
  · next t ht =>
    split_ifs at hs' with hready
    obtain ⟨new, s'', hs'', hnew, hfiling⟩ :=
      exists_foldlM_fileRef (h.of_atWait ht) hready.1 hready.2
    rw [hs''] at hs'
    obtain rfl := Option.some.inj hs'
    exact ⟨new, hnew, hfiling⟩

/-- A run files what `ray.wait` reports, in that order. -/
theorem Filing.of_run (h : Filing nodes parallelism executed filed s)
    {readys : List (List (ObjectRef ν))} {s' : Execution κ ν}
    (hs' : run (step nodes parallelism) s readys = some s') :
    ∃ new, new.map Prod.snd = readys.flatten ∧
      Filing nodes parallelism executed (filed ++ new) s' := by
  induction readys generalizing s filed with
  | nil =>
    obtain rfl := Option.some.inj hs'
    exact ⟨[], rfl, by rwa [List.append_nil]⟩
  | cons ready readys ih =>
    obtain ⟨t, ht, hrun⟩ := run_cons_eq_some_iff.1 hs'
    obtain ⟨new, hnew, hfiling⟩ := h.of_step ht
    obtain ⟨new', hnew', hfiling'⟩ := ih hfiling hrun
    refine ⟨new ++ new', ?_, by rwa [← List.append_assoc]⟩
    rw [List.map_append, hnew, hnew', List.flatten_cons]

omit [DecidableEq ν] in
theorem atWait_eq_none_iff :
    atWait nodes parallelism s = none ↔ nodes.length ≤ s.i ∧ flattenRefs s.executing = [] := by
  unfold atWait
  split
  · next p hp =>
    refine iff_of_false (fun h => by cases h) fun h => ?_
    exact absurd (List.getElem?_eq_some_iff.1 hp).1 (by omega)
  · next hnone =>
    split_ifs with hempty
    · exact iff_of_true rfl ⟨List.getElem?_eq_none_iff.1 hnone, hempty⟩
    · exact iff_of_false (fun h => by cases h) fun h => hempty h.2

omit [DecidableEq ν] in
/-- When the loops are over, the refs of all nodes have been filed. -/
theorem Filing.perm_refsFrom (h : Filing nodes parallelism executed filed s)
    (hend : atWait nodes parallelism s = none) :
    filed.Perm (refsFrom executed.length nodes) := by
  obtain ⟨hlen, hempty⟩ := atWait_eq_none_iff.1 hend
  have hperm := h.perm
  rwa [List.take_of_length_le hlen,
    List.map_eq_nil_iff.1 ((map_snd_entries s.executing).trans hempty), List.append_nil] at hperm

omit [DecidableEq ν] in
/-- With room for a task, `ray.wait` never gets an empty list. -/
theorem flattenRefs_ne_nil_of_atWait (hparallelism : 1 ≤ parallelism)
    (ht : atWait nodes parallelism s = some t) : flattenRefs t.executing ≠ [] := by
  unfold atWait at ht
  split at ht
  · next p hp =>
    obtain rfl := Option.some.inj ht
    intro hnil
    unfold schedule at hnil
    split_ifs at hnil with hlt
    · have hperm := (perm_entries_appendRef s.executing p.1 ⟨s.executed.length, p.2⟩).map Prod.snd
      rw [map_snd_entries, hnil] at hperm
      exact List.cons_ne_nil _ _ (List.nil_perm.1 hperm)
    · rw [← length_flattenRefs, hnil, List.length_nil] at hlt
      omega
  · split_ifs at ht with hempty
    obtain rfl := Option.some.inj ht
    exact hempty

/-- **Bounded execution without loss.**  In every reachable state, and at every `ray.wait`, at most
`parallelism` refs are in flight; `ray.wait` gets a list of different refs that is not empty, and
whatever part of it is ready can be filed.  When the loops are over, every node was executed once,
in order, every ref is filed once under its own key, and nothing is in flight. -/
theorem execution_run (nodes : List (κ × ν)) {parallelism : ℕ} (executed : List ν)
    (hparallelism : 1 ≤ parallelism) {readys : List (List (ObjectRef ν))} {s : Execution κ ν}
    (hs : run (step nodes parallelism) (.init executed) readys = some s) :
    (flattenRefs s.executing).length ≤ parallelism ∧
      (∀ t, atWait nodes parallelism s = some t →
        (flattenRefs t.executing).length ≤ parallelism ∧ flattenRefs t.executing ≠ [] ∧
          (flattenRefs t.executing).Nodup ∧
          ∀ ready : List (ObjectRef ν), ready.Nodup →
            (∀ ref ∈ ready, ref ∈ flattenRefs t.executing) →
            ∃ s', ready.foldlM fileRef t = .ok s') ∧
      (atWait nodes parallelism s = none →
        s.executed = executed ++ nodes.map Prod.snd ∧
          (entries s.results).Perm (refsFrom executed.length nodes) ∧
          (s.results.map Prod.fst).Nodup ∧ flattenRefs s.executing = []) := by
  obtain ⟨filed, -, hfiling⟩ := (Filing.init nodes parallelism executed).of_run hs
  rw [List.nil_append] at hfiling
  refine ⟨hfiling.bounded, fun t ht => ?_, fun hend => ?_⟩
  · have hfiling' := hfiling.of_atWait ht
    refine ⟨hfiling'.bounded, flattenRefs_ne_nil_of_atWait hparallelism ht,
      hfiling'.nodup_flattenRefs, fun ready hnodup hready => ?_⟩
    obtain ⟨_, s', hs', -⟩ := exists_foldlM_fileRef hfiling' hnodup hready
    exact ⟨s', hs'⟩
  · obtain ⟨hlen, hempty⟩ := atWait_eq_none_iff.1 hend
    have htake : nodes.take s.i = nodes := List.take_of_length_le hlen
    refine ⟨htake ▸ hfiling.executed_eq, ?_, hfiling.results_eq ▸ nodup_keys_resultsOf filed,
      hempty⟩
    rw [hfiling.results_eq]
    exact (perm_entries_resultsOf filed).trans (hfiling.perm_refsFrom hend)

/-- Two tasks at a time; the second one is ready first. -/
theorem execution_run_secondFirst :
    ∃ s : Execution ℕ String, atWait [(0, "a"), (1, "b"), (0, "c")] 2 s = none ∧
      s.executed = ["a", "b", "c"] ∧
      s.results = [(1, [⟨1, "b"⟩]), (0, [⟨0, "a"⟩, ⟨2, "c"⟩])] := by
  have hs : run (step [(0, "a"), (1, "b"), (0, "c")] 2) (.init [])
      [[], [⟨1, "b"⟩], [⟨0, "a"⟩], [⟨2, "c"⟩]] =
      some ⟨3, [(0, []), (1, [])], [(1, [⟨1, "b"⟩]), (0, [⟨0, "a"⟩, ⟨2, "c"⟩])],
        ["a", "b", "c"]⟩ := rfl
  have hend := (execution_run _ [] (by decide) hs).2.2 rfl
  exact ⟨_, rfl, hend.1, rfl⟩

end Svoe
