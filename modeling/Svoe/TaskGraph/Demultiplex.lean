import Svoe.Common.Dict
import Svoe.Common.Frame

/-!
# The blocks of the dependencies

`calculate_feature` puts the block references of all dependencies in one list, fetches them with
one `ray.get`, and cuts what it gets into the blocks of each dependency again.  The list it makes is
the list of the dependencies' lists (`chain` of one iterable joins nothing), and each of these
becomes an argument of `ray.get`, which takes one.

* `sliceDeps_flatMap` : the cuts are those of one flat list, for any number of dependencies.
* `demultiplexed_iff` : every dependency gets its own blocks if and only if there is only one.
-/

namespace Svoe

variable {F R β : Type*}

/-- `itertools.chain(*iterables)`, as a list. -/
def chain {γ : Type*} (iterables : List (List γ)) : List γ := iterables.flatten

/-- The loop that cuts the fetched objects by running offsets. -/
def sliceDeps [DecidableEq F] (allObjs : List β) (start : ℕ) (deps : List (F × List β)) :
    List (F × List R) → List (F × List β)
  | [] => deps
  | (depFeature, refs) :: depRefs =>
    let depBlocks := (allObjs.drop start).take refs.length
    sliceDeps allObjs (start + refs.length) (dictSet deps depFeature depBlocks) depRefs

/-- What `calculate_feature` hands to `merge_blocks`; `get` is `ray.get` of the positional
arguments. -/
def fetchDeps [DecidableEq F] (get : List (List R) → Except PyError (List β))
    (depRefs : List (F × List R)) : Except PyError (List (F × List β)) :=
  let depBlockRefs := depRefs.map Prod.snd
  let allBlockRefs := chain [depBlockRefs]
  (get allBlockRefs).map fun allObjs => sliceDeps allObjs 0 [] depRefs

/-- What `ray.get(object_refs, *, timeout=None)` does with its positional arguments: of one list of
references it returns the values in order, and it takes no second one. -/
structure RayGet (value : R → β) (get : List (List R) → Except PyError (List β)) : Prop where
  one : ∀ refs, get [refs] = .ok (refs.map value)
  more : ∀ refs refs' rest, get (refs :: refs' :: rest) = .error .type

/-- Every dependency gets its own blocks, in their order. -/
def Demultiplexed [DecidableEq F] (value : R → β) (get : List (List R) → Except PyError (List β))
    (depRefs : List (F × List R)) : Prop :=
  fetchDeps get depRefs = .ok (depRefs.map fun p => (p.1, p.2.map value))

section Slices

variable [DecidableEq F] {value : R → β} {get : List (List R) → Except PyError (List β)}
  {depRefs : List (F × List R)}

/-- **The running offsets** fit the values of all references in one list. -/
theorem sliceDeps_flatMap (hkeys : (depRefs.map Prod.fst).Nodup) :
    sliceDeps (depRefs.flatMap fun p => p.2.map value) 0 [] depRefs =
      depRefs.map fun p => (p.1, p.2.map value) := by
  suffices ∀ (done rest : List (F × List R)), (((done ++ rest).map Prod.fst).Nodup) →
      sliceDeps ((done ++ rest).flatMap fun p => p.2.map value)
        (done.flatMap fun p => p.2.map value).length (done.map fun p => (p.1, p.2.map value)) rest =
      (done ++ rest).map fun p => (p.1, p.2.map value) from this [] depRefs hkeys
  intro done rest hnodup
  induction rest generalizing done with
  | nil => rw [sliceDeps, List.append_nil]
  | cons p rest ih =>
    obtain ⟨depFeature, refs⟩ := p
    have hslice : (((done ++ (depFeature, refs) :: rest).flatMap fun p => p.2.map value).drop
        (done.flatMap fun p => p.2.map value).length).take refs.length = refs.map value := by
      rw [List.flatMap_append, List.drop_left, List.flatMap_cons, List.take_left']
      exact List.length_map _
    have hnew : depFeature ∉ (done.map fun p => (p.1, p.2.map value)).map Prod.fst := by
      rw [List.map_append, List.map_cons, List.nodup_middle] at hnodup
      rw [List.map_map]
      exact fun hmem => (List.nodup_cons.1 hnodup).1 (List.mem_append_left _ hmem)
    rw [sliceDeps, hslice, dictSet_of_not_mem hnew]
    have hnext := ih (done ++ [(depFeature, refs)]) (by simpa using hnodup)
    simpa using hnext

/-- **Every dependency gets its own blocks if and only if there is only one.** -/
theorem demultiplexed_iff (hget : RayGet value get) (hkeys : (depRefs.map Prod.fst).Nodup)
    (hne : depRefs ≠ []) : Demultiplexed value get depRefs ↔ depRefs.length = 1 := by
  unfold Demultiplexed fetchDeps chain
  dsimp only
  rw [List.flatten_singleton]
  match depRefs, hne with
  | [(depFeature, refs)], _ =>
    refine iff_of_true ?_ rfl
    have hslices : sliceDeps _ 0 [] [(depFeature, refs)] =
        [(depFeature, refs.map value)] := sliceDeps_flatMap hkeys
    rw [List.flatMap_singleton] at hslices
    rw [List.map_singleton, hget.one]
    exact congrArg Except.ok hslices
  | p :: p' :: rest, _ =>
    refine iff_of_false ?_ (by simp)
    rw [List.map_cons, List.map_cons, hget.more]
    intro h
    cases h

end Slices

/-- `ray.get` for references that are their own values. -/
def rayGet (args : List (List ℕ)) : Except PyError (List ℕ) :=
  match args with
  | [refs] => .ok refs
  | _ => .error .type

theorem rayGet_spec : RayGet id rayGet := ⟨fun refs => by rw [List.map_id]; rfl, fun _ _ _ => rfl⟩

theorem demultiplexed_iff_oneDependency :
    Demultiplexed id rayGet [("trades", [1, 2, 3])] ↔ [("trades", [1, 2, 3])].length = 1 :=
  demultiplexed_iff rayGet_spec (by simp) (by simp)

/-- Two dependencies: `ray.get` gets two arguments. -/
theorem not_demultiplexed_twoDependencies :
    fetchDeps rayGet [("trades", [1, 2]), ("l2_book", [3])] = .error .type ∧
      ¬ Demultiplexed id rayGet [("trades", [1, 2]), ("l2_book", [3])] := by
  have hraise : fetchDeps rayGet [("trades", [1, 2]), ("l2_book", [3])] = .error .type := rfl
  refine ⟨hraise, fun h => ?_⟩
  rw [Demultiplexed, hraise] at h
  cases h

end Svoe
