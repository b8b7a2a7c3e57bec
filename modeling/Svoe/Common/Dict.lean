import Mathlib.Data.List.Induction
import Mathlib.Data.List.Nodup

/-!
# Insertion-ordered dictionaries

A Python `dict` is the list of its items in the order of first insertion.  `dictSet` is item
assignment, `dictGet` is `get`, `dictErase` is `del`.
-/

namespace Svoe

variable {κ υ : Type*} [DecidableEq κ]

/-- `d[k] = v`. -/
def dictSet (d : List (κ × υ)) (k : κ) (v : υ) : List (κ × υ) :=
  match d with
  | [] => [(k, v)]
  | p :: d => if p.1 = k then (k, v) :: d else p :: dictSet d k v

/-- `d.get(k)`. -/
def dictGet (d : List (κ × υ)) (k : κ) : Option υ := (d.find? fun p => p.1 = k).map Prod.snd

/-- `d.update(d')`. -/
def dictUpdate (d d' : List (κ × υ)) : List (κ × υ) := d'.foldl (fun d p => dictSet d p.1 p.2) d

/-- `del d[k]`, for a key that is there. -/
def dictErase (d : List (κ × υ)) (k : κ) : List (κ × υ) := d.eraseP fun p => p.1 = k

/-- The dictionary that assigning the items one after the other gives. -/
def dictOf (l : List (κ × υ)) : List (κ × υ) := l.foldl (fun d p => dictSet d p.1 p.2) []

theorem dictSet_of_not_mem {d : List (κ × υ)} {k : κ} {v : υ} (h : k ∉ d.map Prod.fst) :
    dictSet d k v = d ++ [(k, v)] := by
  induction d with
  | nil => rfl
  | cons p d ih =>
    rw [List.map_cons, List.mem_cons, not_or] at h
    rw [dictSet, if_neg (Ne.symm h.1), ih h.2, List.cons_append]

/-- Assigning to a key that is present changes its value only. -/
theorem dictSet_append_cons {d d' : List (κ × υ)} {k : κ} {v w : υ} (h : k ∉ d.map Prod.fst) :
    dictSet (d ++ (k, v) :: d') k w = d ++ (k, w) :: d' := by
  induction d with
  | nil => exact if_pos rfl
  | cons p d ih =>
    rw [List.map_cons, List.mem_cons, not_or] at h
    rw [List.cons_append, dictSet, if_neg (Ne.symm h.1), ih h.2, List.cons_append]

/-- The item of a key that is present. -/
theorem exists_eq_append_cons {d : List (κ × υ)} {k : κ} (h : k ∈ d.map Prod.fst) :
    ∃ l v l', d = l ++ (k, v) :: l' ∧ k ∉ l.map Prod.fst := by
  induction d with
  | nil => cases h
  | cons p d ih =>
    by_cases hk : p.1 = k
    · exact ⟨[], p.2, d, by rw [← hk]; rfl, by simp⟩
    · obtain ⟨l, v, l', rfl, hl⟩ := ih ((List.mem_cons.1 h).resolve_left (Ne.symm hk))
      exact ⟨p :: l, v, l', rfl, by simpa [Ne.symm hk] using hl⟩

theorem dictGet_append_cons {d d' : List (κ × υ)} {k : κ} {v : υ} (h : k ∉ d.map Prod.fst) :
    dictGet (d ++ (k, v) :: d') k = some v := by
  induction d with
  | nil => simp [dictGet]
  | cons p d ih =>
    rw [List.map_cons, List.mem_cons, not_or] at h
    rw [dictGet, List.cons_append, List.find?_cons_of_neg (by simpa using Ne.symm h.1)]
    exact ih h.2

theorem keys_dictSet (d : List (κ × υ)) (k : κ) (v : υ) :
    (dictSet d k v).map Prod.fst =
      if k ∈ d.map Prod.fst then d.map Prod.fst else d.map Prod.fst ++ [k] := by
  split_ifs with h
  · obtain ⟨l, w, l', rfl, hl⟩ := exists_eq_append_cons h
    rw [dictSet_append_cons hl]
    simp
  · rw [dictSet_of_not_mem h]
    simp

theorem keys_subset_keys_dictSet (d : List (κ × υ)) (k : κ) (v : υ) :
    d.map Prod.fst ⊆ (dictSet d k v).map Prod.fst := by
  rw [keys_dictSet]
  split_ifs
  · exact List.Subset.refl _
  · exact List.subset_append_left _ _

theorem nodup_keys_dictSet {d : List (κ × υ)} (h : (d.map Prod.fst).Nodup) (k : κ) (v : υ) :
    ((dictSet d k v).map Prod.fst).Nodup := by
  rw [keys_dictSet]
  split_ifs with hk
  · exact h
  · exact List.nodup_append.2 ⟨h, List.nodup_singleton k, by
      rintro a ha b hb rfl
      exact hk (List.mem_singleton.1 hb ▸ ha)⟩

theorem dictUpdate_append (d l l' : List (κ × υ)) :
    dictUpdate d (l ++ l') = dictUpdate (dictUpdate d l) l' := List.foldl_append

theorem nodup_keys_dictUpdate {d : List (κ × υ)} (h : (d.map Prod.fst).Nodup)
    (l : List (κ × υ)) : ((dictUpdate d l).map Prod.fst).Nodup := by
  induction l generalizing d with
  | nil => exact h
  | cons p l ih => exact ih (nodup_keys_dictSet h p.1 p.2)

/-- The items after an assignment. -/
theorem eq_or_mem_of_mem_dictSet {d : List (κ × υ)} {k : κ} {v : υ} {p : κ × υ}
    (h : p ∈ dictSet d k v) : p = (k, v) ∨ p ∈ d := by
  induction d with
  | nil => exact .inl (List.mem_singleton.1 h)
  | cons q d ih =>
    rw [dictSet] at h
    split_ifs at h with hk
    · exact (List.mem_cons.1 h).imp_right (List.mem_cons_of_mem _)
    · rcases List.mem_cons.1 h with rfl | h
      · exact .inr List.mem_cons_self
      · exact (ih h).imp_right (List.mem_cons_of_mem _)

/-- Items of an updated dictionary come from one of the two. -/
theorem mem_or_mem_of_mem_dictUpdate {d l : List (κ × υ)} {p : κ × υ}
    (h : p ∈ dictUpdate d l) : p ∈ d ∨ p ∈ l := by
  induction l generalizing d with
  | nil => exact .inl h
  | cons q l ih =>
    rcases ih h with h | h
    · rcases eq_or_mem_of_mem_dictSet h with rfl | h
      · exact .inr List.mem_cons_self
      · exact .inl h
    · exact .inr (List.mem_cons_of_mem _ h)

/-- Assigning to new keys. -/
theorem dictUpdate_of_nodup {d l : List (κ × υ)} (h : ((d ++ l).map Prod.fst).Nodup) :
    dictUpdate d l = d ++ l := by
  rw [dictUpdate]
  induction l generalizing d with
  | nil => simp
  | cons p l ih =>
    have hp : p.1 ∉ d.map Prod.fst := by
      rw [List.map_append, List.map_cons, List.nodup_middle] at h
      exact fun hm => (List.nodup_cons.1 h).1 (List.mem_append_left _ hm)
    rw [List.foldl_cons, dictSet_of_not_mem hp, ih (by simpa using h)]
    simp

theorem dictOf_of_nodup {l : List (κ × υ)} (h : (l.map Prod.fst).Nodup) : dictOf l = l :=
  dictUpdate_of_nodup (d := []) h

/-- The keys are in the order of first assignment. -/
theorem keys_dictOf_sublist (l : List (κ × υ)) :
    ((dictOf l).map Prod.fst).Sublist (l.map Prod.fst) := by
  induction l using List.reverseRecOn with
  | nil => exact .slnil
  | append_singleton l p ih =>
    rw [dictOf, List.foldl_append, List.foldl_cons, List.foldl_nil, ← dictOf, keys_dictSet,
      List.map_append]
    split_ifs
    · exact ih.trans (List.sublist_append_left _ _)
    · exact ih.append (List.Sublist.refl _)

/-- The dictionary of changed items is the one before only if no item has changed. -/
theorem dictOf_map_eq_self_iff {d : List (κ × υ)} (h : (d.map Prod.fst).Nodup)
    {f : κ × υ → κ × υ} : dictOf (d.map f) = d ↔ d.map f = d := by
  constructor
  · intro heq
    have hsub := keys_dictOf_sublist (d.map f)
    rw [heq] at hsub
    -- no key has been lost, so that the items that were assigned have distinct keys
    have hkeys : d.map Prod.fst = (d.map f).map Prod.fst :=
      hsub.eq_of_length (by rw [List.length_map, List.length_map, List.length_map])
    rwa [dictOf_of_nodup (hkeys ▸ h)] at heq
  · intro heq
    rw [heq, dictOf_of_nodup h]

theorem mem_keys_dictOf {l : List (κ × υ)} {k : κ} (h : k ∈ l.map Prod.fst) :
    k ∈ (dictOf l).map Prod.fst := by
  induction l using List.reverseRecOn with
  | nil => exact h
  | append_singleton l p ih =>
    rw [dictOf, List.foldl_append, List.foldl_cons, List.foldl_nil, ← dictOf, keys_dictSet]
    rw [List.map_append, List.mem_append] at h
    split_ifs with hp
    · rcases h with h | h
      · exact ih h
      · rwa [List.mem_singleton.1 h]
    · exact List.mem_append.2 (h.imp_left ih)

theorem dictGet_eq_some_iff {d : List (κ × υ)} (h : (d.map Prod.fst).Nodup) {k : κ} {v : υ} :
    dictGet d k = some v ↔ (k, v) ∈ d := by
  unfold dictGet
  rw [Option.map_eq_some_iff]
  constructor
  · rintro ⟨p, hp, rfl⟩
    obtain rfl : p.1 = k := by simpa using List.find?_some hp
    exact List.mem_of_find?_eq_some hp
  · intro hmem
    cases hf : d.find? fun p => p.1 = k with
    | none =>
      rw [List.find?_eq_none] at hf
      exact absurd (decide_eq_true rfl) (hf _ hmem)
    | some p =>
      have hk : p.1 = k := by simpa using List.find?_some hf
      exact ⟨p, rfl, congrArg Prod.snd
        (List.inj_on_of_nodup_map h (List.mem_of_find?_eq_some hf) hmem hk)⟩

theorem dictGet_eq_none_iff {d : List (κ × υ)} {k : κ} :
    dictGet d k = none ↔ k ∉ d.map Prod.fst := by
  rw [dictGet, Option.map_eq_none_iff, List.find?_eq_none, List.mem_map]
  simp only [decide_eq_true_eq, not_exists, not_and]

/-- What is assigned is found, and nothing else changes. -/
theorem dictGet_dictSet (d : List (κ × υ)) (k k' : κ) (v : υ) :
    dictGet (dictSet d k v) k' = if k = k' then some v else dictGet d k' := by
  induction d with
  | nil => by_cases h : k = k' <;> simp [dictSet, dictGet, h]
  | cons p d ih =>
    rw [dictSet]
    split_ifs with hp hk hk
    · simp [dictGet, hk]
    · simp [dictGet, hk, hp]
    · rw [dictGet, List.find?_cons_of_neg (by simpa using hk ▸ hp)]
      exact ih.trans (if_pos hk)
    · by_cases hp' : p.1 = k'
      · simp [dictGet, hp']
      · rw [dictGet, dictGet, List.find?_cons_of_neg (by simpa using hp'),
          List.find?_cons_of_neg (by simpa using hp')]
        exact ih.trans (if_neg hk)

theorem keys_dictErase (d : List (κ × υ)) (k : κ) :
    (dictErase d k).map Prod.fst = (d.map Prod.fst).erase k := by
  induction d with
  | nil => rfl
  | cons p d ih =>
    by_cases hp : p.1 = k
    · simp [dictErase, hp]
    · simpa [dictErase, hp, List.erase_cons] using ih

/-- The deleted key is gone, and nothing else changes. -/
theorem dictGet_dictErase {d : List (κ × υ)} (h : (d.map Prod.fst).Nodup) (k k' : κ) :
    dictGet (dictErase d k) k' = if k = k' then none else dictGet d k' := by
  split_ifs with hk
  · rw [dictGet_eq_none_iff, keys_dictErase, hk]
    exact h.not_mem_erase
  · induction d with
    | nil => rfl
    | cons p d ih =>
      by_cases hp : p.1 = k
      · rw [dictErase, List.eraseP_cons_of_pos (by simpa using hp)]
        have hne : p.1 ≠ k' := hp.trans_ne hk
        rw [dictGet, dictGet, List.find?_cons_of_neg (by simpa using hne)]
      · rw [dictErase, List.eraseP_cons_of_neg (by simpa using hp), dictGet, dictGet,
          List.find?_cons, List.find?_cons]
        cases decide (p.1 = k')
        · exact ih (List.nodup_cons.1 h).2
        · rfl

/-- The values of a dictionary of lists, after one of them was replaced. -/
theorem perm_flatMap_dictSet {α : Type*} (d : List (κ × List α)) (k : κ) (l : List α) :
    ((dictSet d k l).flatMap Prod.snd ++ (dictGet d k).getD []).Perm
      (d.flatMap Prod.snd ++ l) := by
  induction d with
  | nil => simp [dictSet, dictGet]
  | cons p d ih =>
    rw [dictSet]
    by_cases hp : p.1 = k
    · rw [if_pos hp, dictGet, List.find?_cons_of_pos (by simpa using hp)]
      simp only [List.flatMap_cons, Option.map_some, Option.getD_some, List.append_assoc]
      refine List.perm_append_comm.trans ?_
      rw [List.append_assoc]
      exact List.perm_append_comm_assoc _ _ _
    · rw [if_neg hp, dictGet, List.find?_cons_of_neg (by simpa using hp), List.flatMap_cons,
        List.flatMap_cons, List.append_assoc, List.append_assoc]
      exact ih.append_left p.2

/-- An assignment adds one item at most. -/
theorem countP_dictSet_le (q : κ × υ → Bool) (d : List (κ × υ)) (k : κ) (v : υ) :
    (dictSet d k v).countP q ≤ d.countP q + if q (k, v) then 1 else 0 := by
  induction d with
  | nil => simp [dictSet, List.countP_cons]
  | cons p d ih =>
    rw [dictSet]
    split_ifs with hp
    all_goals
      simp only [List.countP_cons]
      split_ifs at ih ⊢
      all_goals omega

theorem countP_dictErase_le (q : κ × υ → Bool) (d : List (κ × υ)) (k : κ) :
    (dictErase d k).countP q ≤ d.countP q := List.eraseP_sublist.countP_le

/-- A lookup among values that are computed key by key. -/
theorem dictGet_filterMap {υ' : Type*} {d : List (κ × υ)} (h : (d.map Prod.fst).Nodup)
    {g : κ × υ → Option υ'} {p : κ × υ} (hp : p ∈ d) :
    dictGet (d.filterMap fun p => (g p).map fun v => (p.1, v)) p.1 = g p := by
  have hsub : ((d.filterMap fun p => (g p).map fun v => (p.1, v)).map Prod.fst).Nodup := by
    refine h.sublist ?_
    clear h hp
    induction d with
    | nil => simp
    | cons q d ih =>
      cases hq : g q with
      | none => simpa [List.filterMap_cons, hq] using ih.trans (List.sublist_cons_self _ _)
      | some v => simpa [List.filterMap_cons, hq] using ih
  refine Option.ext fun v => ?_
  rw [dictGet_eq_some_iff hsub, List.mem_filterMap]
  constructor
  · rintro ⟨q, hq, hqv⟩
    obtain ⟨w, hw, heq⟩ := Option.map_eq_some_iff.1 hqv
    obtain ⟨hk, rfl⟩ := Prod.mk.inj heq
    rwa [← List.inj_on_of_nodup_map h hq hp hk]
  · intro hv
    exact ⟨p, hp, by rw [hv]; rfl⟩

/-! ### Assigning again -/

theorem mem_of_dictGet {d : List (κ × υ)} {k : κ} {v : υ} (h : dictGet d k = some v) :
    (k, v) ∈ d := by
  obtain ⟨p, hp, rfl⟩ := Option.map_eq_some_iff.1 h
  obtain rfl : p.1 = k := by simpa using List.find?_some hp
  exact List.mem_of_find?_eq_some hp

theorem dictSet_dictSet (d : List (κ × υ)) (k : κ) (v w : υ) :
    dictSet (dictSet d k v) k w = dictSet d k w := by
  induction d with
  | nil => simp [dictSet]
  | cons p d ih =>
    simp only [dictSet]
    split_ifs with hp
    · simp [dictSet]
    · rw [dictSet, if_neg hp, ih]

theorem dictGet_append (d d' : List (κ × υ)) (k : κ) :
    dictGet (d ++ d') k = (dictGet d k).or (dictGet d' k) := by
  rw [dictGet, List.find?_append, dictGet, dictGet]
  cases d.find? fun p => p.1 = k <;> rfl

theorem dictGet_cons (p : κ × υ) (d : List (κ × υ)) (k : κ) :
    dictGet (p :: d) k = if p.1 = k then some p.2 else dictGet d k := by
  by_cases hp : p.1 = k <;> simp [dictGet, hp]

/-! ### Mapping values -/

/-- The values of a dictionary, mapped one by one. -/
def mapValues {υ' : Type*} (f : υ → υ') (d : List (κ × υ)) : List (κ × υ') :=
  d.map fun p => (p.1, f p.2)

section MapValues

variable {υ' : Type*} (f : υ → υ')

omit [DecidableEq κ] in
@[simp] theorem mapValues_nil : mapValues f ([] : List (κ × υ)) = [] := rfl

theorem dictGet_mapValues (d : List (κ × υ)) (k : κ) :
    dictGet (mapValues f d) k = (dictGet d k).map f := by
  induction d with
  | nil => rfl
  | cons p d ih =>
    by_cases hp : p.1 = k
    · simp [mapValues, dictGet, hp]
    · simpa [mapValues, dictGet, hp] using ih

theorem mapValues_dictSet (d : List (κ × υ)) (k : κ) (v : υ) :
    mapValues f (dictSet d k v) = dictSet (mapValues f d) k (f v) := by
  induction d with
  | nil => rfl
  | cons p d ih =>
    have hcons : ∀ (q : κ × υ) d, mapValues f (q :: d) = (q.1, f q.2) :: mapValues f d :=
      fun _ _ => rfl
    rw [dictSet, hcons, dictSet]
    split_ifs
    · rfl
    · rw [hcons, ih]

end MapValues

end Svoe
