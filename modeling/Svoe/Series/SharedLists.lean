import Mathlib.Data.List.Basic
import Svoe.Common.Dict

/-!
# Merging dictionaries of lists into shared lists

Several dictionaries of lists are merged into one that starts with the lists of the first
dictionaries themselves, not with copies: what is appended to a merged list is appended to the list
of the dictionary that it comes from.

* `Shared` : the dictionaries, and for each key of the merged one the dictionary that its list is
  shared with.
* `Shared.Merged` : what has become of them after some lists were merged.
* `exists_share_iff`, `merged_share` : one more list.
* `Shared.Merged.heap_eq_iff` : when the dictionaries are still as they were.
-/

namespace Svoe

namespace Series

variable {κ α : Type*} [DecidableEq κ]

/-- Dictionaries of lists, and a dictionary that shares lists with them. -/
structure Shared (κ α : Type*) where
  /-- The dictionaries. -/
  heap : List (List (κ × List α))
  /-- Whose list the merged dictionary has at a key. -/
  owner : List (κ × ℕ)

/-- The list of the dictionary `n` at a key. -/
def readAt (heap : List (List (κ × List α))) (n : ℕ) (k : κ) : Option (List α) :=
  heap[n]?.bind fun d => dictGet d k

/-- `d[k].extend(l)`. -/
def dictExtend (d : List (κ × List α)) (k : κ) (l : List α) : List (κ × List α) :=
  dictSet d k ((dictGet d k).getD [] ++ l)

/-- The list of the dictionary `n` at a key becomes that of the merged dictionary, or is appended
to it; `none` if there is no such list. -/
def Shared.share (s : Shared κ α) (n : ℕ) (k : κ) : Option (Shared κ α) :=
  match readAt s.heap n k with
  | none => none
  | some l =>
    match dictGet s.owner k with
    | none => some { s with owner := dictSet s.owner k n }
    | some o => some { s with heap := s.heap.modify o fun d => dictExtend d k l }

/-- The merged dictionary. -/
def Shared.values (s : Shared κ α) : List (κ × List α) :=
  s.owner.map fun p => (p.1, (readAt s.heap p.2 p.1).getD [])

/-- The dictionaries whose lists at a key have been merged, in their order. -/
def mergedFrom (ps : List (ℕ × κ)) (k : κ) : List ℕ := (ps.filter fun p => p.2 = k).map Prod.fst

/-- All lists at a key that have been merged. -/
def mergedLists (heap₀ : List (List (κ × List α))) (ps : List (ℕ × κ)) (k : κ) : List α :=
  (mergedFrom ps k).flatMap fun n => (readAt heap₀ n k).getD []

variable {heap heap₀ : List (List (κ × List α))} {s s' : Shared κ α} {ps : List (ℕ × κ)} {n : ℕ}
  {k k' : κ} {l : List α}

theorem mergedFrom_append_singleton (ps : List (ℕ × κ)) (n : ℕ) (k k' : κ) :
    mergedFrom (ps ++ [(n, k)]) k' = mergedFrom ps k' ++ if k = k' then [n] else [] := by
  by_cases h : k = k' <;> simp [mergedFrom, h]

theorem mergedLists_append_singleton (heap₀ : List (List (κ × List α))) (ps : List (ℕ × κ)) (n : ℕ)
    (k k' : κ) :
    mergedLists heap₀ (ps ++ [(n, k)]) k' =
      mergedLists heap₀ ps k' ++ if k = k' then (readAt heap₀ n k').getD [] else [] := by
  rw [mergedLists, mergedFrom_append_singleton, List.flatMap_append, ← mergedLists]
  by_cases h : k = k' <;> simp [h]

theorem readAt_modify (heap : List (List (κ × List α))) (o n : ℕ) (k k' : κ) (l : List α) :
    readAt (heap.modify o fun d => dictExtend d k l) n k' =
      if o = n ∧ k = k' then (heap[n]?).map fun d => (dictGet d k).getD [] ++ l
      else readAt heap n k' := by
  rw [readAt, readAt, List.getElem?_modify]
  by_cases ho : o = n
  · cases hn : heap[n]? with
    | none => simp
    | some d =>
      by_cases hk : k = k' <;> simp [ho, hk, dictExtend, dictGet_dictSet]
  · simp [ho]

/-- What the lists are after some of them were merged: the first list at each key has all merged
ones at the key, and the others are as before. -/
structure Shared.Merged (heap₀ : List (List (κ × List α))) (ps : List (ℕ × κ))
    (s : Shared κ α) : Prop where
  owner_eq : ∀ k, dictGet s.owner k = (mergedFrom ps k).head?
  nodup_owner : (s.owner.map Prod.fst).Nodup
  readAt_eq : ∀ n k, readAt s.heap n k =
    if (mergedFrom ps k).head? = some n then some (mergedLists heap₀ ps k) else readAt heap₀ n k
  keys_eq : s.heap.map (List.map Prod.fst) = heap₀.map (List.map Prod.fst)

theorem merged_nil (heap₀ : List (List (κ × List α))) : Shared.Merged heap₀ [] ⟨heap₀, []⟩ where
  owner_eq _ := rfl
  nodup_owner := List.nodup_nil
  readAt_eq _ _ := rfl
  keys_eq := rfl

/-- A list that has not been merged is as it was. -/
theorem Shared.Merged.readAt_of_not_mem (h : Shared.Merged heap₀ ps s) (hn : n ∉ mergedFrom ps k) :
    readAt s.heap n k = readAt heap₀ n k := by
  rw [h.readAt_eq, if_neg]
  exact fun hhead => hn (List.mem_of_head? hhead)

/-- One more list can be merged if it is there. -/
theorem exists_share_iff (h : Shared.Merged heap₀ ps s) (hn : n ∉ mergedFrom ps k) :
    (∃ s', s.share n k = some s') ↔ ∃ l, readAt heap₀ n k = some l := by
  rw [Shared.share, h.readAt_of_not_mem hn]
  cases readAt heap₀ n k with
  | none => exact iff_of_false nofun nofun
  | some l => cases dictGet s.owner k <;> simp

theorem map_modify_of_eq {α β : Type*} {f : α → α} {g : α → β} {l : List α} {o : ℕ}
    (h : ∀ d, l[o]? = some d → g (f d) = g d) : (l.modify o f).map g = l.map g := by
  refine List.ext_getElem? fun j => ?_
  rw [List.getElem?_map, List.getElem?_map, List.getElem?_modify]
  by_cases hj : o = j
  · subst hj
    cases hd : l[o]? with
    | none => rfl
    | some d => simp [h d hd]
  · simp [hj]

/-- The first list at a key is taken over. -/
theorem Shared.Merged.of_first {l : List α} (h : Shared.Merged heap₀ ps s)
    (ho : dictGet s.owner k = none) (hl : readAt heap₀ n k = some l) :
    Shared.Merged heap₀ (ps ++ [(n, k)]) { s with owner := dictSet s.owner k n } := by
  have hnil : mergedFrom ps k = [] := by
    rw [h.owner_eq] at ho
    exact List.head?_eq_none_iff.1 ho
  refine ⟨fun k' => ?_, nodup_keys_dictSet h.nodup_owner k n, fun m k' => ?_, h.keys_eq⟩
  · rw [dictGet_dictSet, mergedFrom_append_singleton]
    by_cases hk : k = k'
    · subst hk
      simp [hnil]
    · simp [hk, h.owner_eq k']
  · rw [mergedFrom_append_singleton, mergedLists_append_singleton]
    by_cases hk : k = k'
    · subst hk
      have hempty : mergedLists heap₀ ps k = [] := by rw [mergedLists, hnil]; rfl
      have hold := h.readAt_eq m k
      rw [hnil] at hold ⊢
      rw [hempty]
      by_cases hm : n = m
      · subst hm
        simpa [hl] using hold
      · simpa [hm] using hold
    · simpa [hk] using h.readAt_eq m k'

/-- A later list is appended to that of the first dictionary. -/
theorem Shared.Merged.of_later {l : List α} {o : ℕ} (h : Shared.Merged heap₀ ps s)
    (ho : dictGet s.owner k = some o) (hl : readAt heap₀ n k = some l) :
    Shared.Merged heap₀ (ps ++ [(n, k)])
      { s with heap := s.heap.modify o fun d => dictExtend d k l } := by
  have howner := h.owner_eq k
  rw [ho] at howner
  obtain ⟨rest, hrest⟩ : ∃ rest, mergedFrom ps k = o :: rest :=
    List.head?_eq_some_iff.1 howner.symm
  have hread : readAt s.heap o k = some (mergedLists heap₀ ps k) := by
    rw [h.readAt_eq, ← howner, if_pos rfl]
  obtain ⟨d, hd, hget⟩ := Option.bind_eq_some_iff.1 hread
  refine ⟨fun k' => ?_, h.nodup_owner, fun m k' => ?_, ?_⟩
  · rw [mergedFrom_append_singleton, h.owner_eq k']
    by_cases hk : k = k'
    · subst hk
      simp [hrest]
    · simp [hk]
  · rw [readAt_modify, mergedFrom_append_singleton, mergedLists_append_singleton]
    by_cases hk : k = k'
    · subst hk
      by_cases hm : o = m
      · subst hm
        simp [hd, hget, hrest, hl]
      · simpa [hm, hrest] using h.readAt_eq m k
    · simpa [hk] using h.readAt_eq m k'
  · rw [map_modify_of_eq, h.keys_eq]
    intro d' hd'
    obtain rfl := Option.some.inj (hd.symm.trans hd')
    have hmem : k ∈ d.map Prod.fst := by
      by_contra hnot
      rw [dictGet_eq_none_iff.2 hnot] at hget
      cases hget
    rw [dictExtend, keys_dictSet, if_pos hmem]

/-- **One more list is merged.** -/
theorem merged_share (h : Shared.Merged heap₀ ps s) (hn : n ∉ mergedFrom ps k)
    (hs : s.share n k = some s') : Shared.Merged heap₀ (ps ++ [(n, k)]) s' := by
  rw [Shared.share, h.readAt_of_not_mem hn] at hs
  cases hl : readAt heap₀ n k with
  | none =>
    rw [hl] at hs
    cases hs
  | some l =>
    rw [hl] at hs
    cases ho : dictGet s.owner k with
    | none =>
      rw [ho] at hs
      obtain rfl := Option.some.inj hs
      exact h.of_first ho hl
    | some o =>
      rw [ho] at hs
      obtain rfl := Option.some.inj hs
      exact h.of_later ho hl

/-! ### The result -/

/-- The merged dictionary has all lists at a key, in the order of their dictionaries. -/
theorem Shared.Merged.dictGet_values (h : Shared.Merged heap₀ ps s) (hk : mergedFrom ps k ≠ []) :
    dictGet s.values k = some (mergedLists heap₀ ps k) := by
  obtain ⟨o, rest, hrest⟩ := List.exists_cons_of_ne_nil hk
  have howner : dictGet s.owner k = some o := by rw [h.owner_eq, hrest]; rfl
  have hread : readAt s.heap o k = some (mergedLists heap₀ ps k) := by
    rw [h.readAt_eq, hrest]
    exact if_pos rfl
  have hkeys : s.values.map Prod.fst = s.owner.map Prod.fst := by
    rw [Shared.values, List.map_map]
    rfl
  refine (dictGet_eq_some_iff (hkeys ▸ h.nodup_owner)).2 ?_
  refine List.mem_map.2 ⟨(k, o), (dictGet_eq_some_iff h.nodup_owner).1 howner, ?_⟩
  rw [hread]
  rfl

/-- The merged dictionary has only keys of merged lists. -/
theorem Shared.Merged.mergedFrom_ne_nil {l : List α} (h : Shared.Merged heap₀ ps s)
    (hk : dictGet s.values k = some l) : mergedFrom ps k ≠ [] := by
  intro hnil
  have howner : dictGet s.owner k = none := by rw [h.owner_eq, hnil]; rfl
  have hnot : k ∉ s.values.map Prod.fst := by
    rw [Shared.values, List.map_map]
    exact dictGet_eq_none_iff.1 howner
  rw [dictGet_eq_none_iff.2 hnot] at hk
  cases hk

/-- Dictionaries with the same keys are equal if their values are. -/
theorem dict_ext {d d' : List (κ × α)} (hkeys : d.map Prod.fst = d'.map Prod.fst)
    (hnodup : (d.map Prod.fst).Nodup) (h : ∀ k, dictGet d k = dictGet d' k) : d = d' := by
  induction d generalizing d' with
  | nil => exact (List.map_eq_nil_iff.1 hkeys.symm).symm
  | cons p d ih =>
    cases d' with
    | nil => cases hkeys
    | cons p' d' =>
      obtain ⟨hp, hrest⟩ := List.cons.inj hkeys
      obtain ⟨hnot, hnodup⟩ := List.nodup_cons.1 hnodup
      have hvalue := h p.1
      rw [dictGet, dictGet, List.find?_cons_of_pos (by simp),
        List.find?_cons_of_pos (by simpa using hp.symm)] at hvalue
      obtain rfl : p = p' := Prod.ext hp (Option.some.inj hvalue)
      rw [ih hrest hnodup fun k => ?_]
      by_cases hk : p.1 = k
      · subst hk
        rw [dictGet_eq_none_iff.2 hnot, dictGet_eq_none_iff.2 (hrest ▸ hnot)]
      · have hk' := h k
        rw [dictGet, dictGet, List.find?_cons_of_neg (by simpa using hk),
          List.find?_cons_of_neg (by simpa using hk)] at hk'
        exact hk'

/-- Dictionaries with the same keys and lists are equal. -/
theorem heap_eq_of_readAt_eq (hkeys : heap.map (List.map Prod.fst) = heap₀.map (List.map Prod.fst))
    (hnodup : ∀ d ∈ heap₀, (d.map Prod.fst).Nodup) (h : ∀ n k, readAt heap n k = readAt heap₀ n k) :
    heap = heap₀ := by
  refine List.ext_getElem? fun n => ?_
  have hkeys' := congrArg (fun l => l[n]?) hkeys
  simp only [List.getElem?_map] at hkeys'
  have hn := h n
  simp only [readAt] at hn
  cases hd : heap[n]? with
  | none =>
    rw [hd] at hkeys'
    exact (Option.map_eq_none_iff.1 hkeys'.symm).symm
  | some d =>
    rw [hd] at hkeys' hn
    obtain ⟨d₀, hd₀, hfst⟩ := Option.map_eq_some_iff.1 hkeys'.symm
    rw [hd₀] at hn ⊢
    have hd₀nodup := hnodup d₀ (List.mem_of_getElem? hd₀)
    exact congrArg some (dict_ext hfst.symm (hfst ▸ hd₀nodup) hn)

/-- **The dictionaries are as they were** exactly if nothing was appended to their lists: all lists
that were merged behind the first one at a key are empty. -/
theorem Shared.Merged.heap_eq_iff (h : Shared.Merged heap₀ ps s)
    (hnodup : ∀ d ∈ heap₀, (d.map Prod.fst).Nodup)
    (hread : ∀ k, ∀ n ∈ mergedFrom ps k, (readAt heap₀ n k).isSome) :
    s.heap = heap₀ ↔ ∀ k, ∀ n ∈ (mergedFrom ps k).tail, readAt heap₀ n k = some [] := by
  constructor
  · intro heq k n hn
    obtain ⟨o, rest, hrest⟩ :=
      List.exists_cons_of_ne_nil (List.ne_nil_of_mem (List.mem_of_mem_tail hn))
    obtain ⟨l, hl⟩ := Option.isSome_iff_exists.1 (hread k o (hrest ▸ List.mem_cons_self))
    obtain ⟨l', hl'⟩ := Option.isSome_iff_exists.1 (hread k n (List.mem_of_mem_tail hn))
    have ho := h.readAt_eq o k
    rw [hrest, List.head?_cons, if_pos rfl, heq, hl, mergedLists, hrest, List.flatMap_cons, hl,
      Option.getD_some, Option.some.injEq, List.self_eq_append_right, List.flatMap_eq_nil_iff] at ho
    rw [hrest, List.tail_cons] at hn
    have hnil := ho n hn
    rw [hl', Option.getD_some] at hnil
    rw [hl', hnil]
  · intro hempty
    refine heap_eq_of_readAt_eq h.keys_eq hnodup fun n k => ?_
    rw [h.readAt_eq]
    split_ifs with hhead
    · obtain ⟨rest, hrest⟩ := List.head?_eq_some_iff.1 hhead
      obtain ⟨l, hl⟩ := Option.isSome_iff_exists.1
        (hread k n (by rw [hrest]; exact List.mem_cons_self))
      have hnil : (rest.flatMap fun m => (readAt heap₀ m k).getD []) = [] := by
        refine List.flatMap_eq_nil_iff.2 fun m hm => ?_
        rw [hempty k m (by rw [hrest]; exact hm)]
        rfl
      rw [mergedLists, hrest, List.flatMap_cons, hnil, List.append_nil, hl]
      rfl
    · rfl

end Series

end Svoe
