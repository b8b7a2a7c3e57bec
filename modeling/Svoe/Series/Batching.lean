import Mathlib.Data.List.Basic
import Svoe.Common.Dict

/-!
# Batches

Elements are put into batches of at most `n`, a new batch being opened when the last one is full.

* `Batched` : what the batches of a list are.
* `Batched.push` : one more element.
* `batchesBy` : the batches of each key, in a dictionary.
* `batched_ofKey_labelled` : they are the batches of the elements with the key, in their order.
-/

namespace Svoe

namespace Series

variable {α κ : Type*} {n : ℕ} {batches : List (List α)} {l : List α}

/-- `a` goes into the last batch, or into a new one if that is full. -/
def push (n : ℕ) (batches : List (List α)) (a : α) : List (List α) :=
  let batches := if (batches.getLastD []).length = n then batches ++ [[]] else batches
  batches.dropLast ++ [batches.getLastD [] ++ [a]]

/-- The batches of a list: full ones, and a last one that need not be full. -/
structure Batched (n : ℕ) (batches : List (List α)) (l : List α) : Prop where
  flatten : batches.flatten = l
  ne_nil : ∀ batch ∈ batches, batch ≠ []
  length_le : ∀ batch ∈ batches, batch.length ≤ n
  full : ∀ batch ∈ batches.dropLast, batch.length = n

theorem Batched.singleton (hn : 1 ≤ n) (a : α) : Batched n [[a]] [a] where
  flatten := rfl
  ne_nil := by simp
  length_le := by simpa using hn
  full := nofun

/-- Batches that are open at the end. -/
theorem push_append_singleton (n : ℕ) (batches : List (List α)) (last : List α) (a : α) :
    push n (batches ++ [last]) a =
      if last.length = n then batches ++ [last, [a]] else batches ++ [last ++ [a]] := by
  rw [push, List.getLastD_concat]
  split_ifs <;> simp

theorem flatten_push (n : ℕ) (batches : List (List α)) (a : α) :
    (push n batches a).flatten = batches.flatten ++ [a] := by
  rcases List.eq_nil_or_concat' batches with rfl | ⟨batches, last, rfl⟩
  · rw [push]
    split_ifs <;> rfl
  · rw [push_append_singleton]
    split_ifs <;> simp

theorem batched_push (hn : 1 ≤ n) (h : Batched n batches l) (hne : batches ≠ []) (a : α) :
    Batched n (push n batches a) (l ++ [a]) := by
  obtain ⟨batches, last, rfl⟩ := (List.eq_nil_or_concat' batches).resolve_left hne
  have hlast : last.length ≤ n := h.length_le last (by simp)
  have hfull : ∀ batch ∈ batches, batch.length = n := by
    intro batch hbatch
    exact h.full batch (by rwa [List.dropLast_concat])
  have hflatten := (flatten_push n (batches ++ [last]) a).trans (congrArg (· ++ [a]) h.flatten)
  rw [push_append_singleton] at hflatten ⊢
  split_ifs at hflatten ⊢ with hlen
  · refine ⟨hflatten, ?_, ?_, ?_⟩
    · intro batch hbatch
      rcases List.mem_append.1 hbatch with hbatch | hbatch
      · exact h.ne_nil batch (List.mem_append_left _ hbatch)
      · rcases List.mem_pair.1 hbatch with rfl | rfl
        · exact h.ne_nil batch (by simp)
        · exact List.cons_ne_nil a []
    · intro batch hbatch
      rcases List.mem_append.1 hbatch with hbatch | hbatch
      · exact Nat.le_of_eq (hfull batch hbatch)
      · rcases List.mem_pair.1 hbatch with rfl | rfl
        · exact Nat.le_of_eq hlen
        · exact hn
    · intro batch hbatch
      rw [List.dropLast_append_of_ne_nil (List.cons_ne_nil _ _)] at hbatch
      rcases List.mem_append.1 hbatch with hbatch | hbatch
      · exact hfull batch hbatch
      · obtain rfl := List.mem_singleton.1 hbatch
        exact hlen
  · refine ⟨hflatten, ?_, ?_, ?_⟩
    · intro batch hbatch
      rcases List.mem_append.1 hbatch with hbatch | hbatch
      · exact h.ne_nil batch (List.mem_append_left _ hbatch)
      · rw [List.mem_singleton.1 hbatch]
        simp
    · intro batch hbatch
      rcases List.mem_append.1 hbatch with hbatch | hbatch
      · exact Nat.le_of_eq (hfull batch hbatch)
      · rw [List.mem_singleton.1 hbatch, List.length_append, List.length_singleton]
        omega
    · intro batch hbatch
      rw [List.dropLast_concat] at hbatch
      exact hfull batch hbatch

/-! ### Batches by key -/

variable [DecidableEq κ]

/-- An element goes into the batches of its key. -/
def pushBy (n : ℕ) (grouped : List (κ × List (List α))) (e : κ × α) :
    List (κ × List (List α)) :=
  match dictGet grouped e.1 with
  | none => dictSet grouped e.1 [[e.2]]
  | some batches => dictSet grouped e.1 (push n batches e.2)

/-- The batches of the keys of some elements, in the order of the first element of each key. -/
def batchesBy (n : ℕ) (es : List (κ × α)) : List (κ × List (List α)) := es.foldl (pushBy n) []

/-- The elements with a key. -/
def ofKey (es : List (κ × α)) (k : κ) : List α := (es.filter fun e => e.1 = k).map Prod.snd

theorem ofKey_append_singleton (es : List (κ × α)) (e : κ × α) (k : κ) :
    ofKey (es ++ [e]) k = ofKey es k ++ if e.1 = k then [e.2] else [] := by
  by_cases h : e.1 = k <;> simp [ofKey, h]

theorem batchesBy_append_singleton (n : ℕ) (es : List (κ × α)) (e : κ × α) :
    batchesBy n (es ++ [e]) = pushBy n (batchesBy n es) e := List.foldl_append

theorem nodup_keys_batchesBy (n : ℕ) (es : List (κ × α)) :
    ((batchesBy n es).map Prod.fst).Nodup := by
  induction es using List.reverseRecOn with
  | nil => exact List.nodup_nil
  | append_singleton es e ih =>
    rw [batchesBy_append_singleton, pushBy]
    split <;> exact nodup_keys_dictSet ih _ _

/-- **The batches of a key** are those of the elements with the key. -/
theorem dictGet_batchesBy (hn : 1 ≤ n) (es : List (κ × α)) (k : κ) :
    (dictGet (batchesBy n es) k = none → ofKey es k = []) ∧
      ∀ batches, dictGet (batchesBy n es) k = some batches →
        batches ≠ [] ∧ Batched n batches (ofKey es k) := by
  induction es using List.reverseRecOn with
  | nil => exact ⟨fun _ => rfl, nofun⟩
  | append_singleton es e ih =>
    obtain ⟨hnone, hsome⟩ := ih
    rw [batchesBy_append_singleton, pushBy, ofKey_append_singleton]
    by_cases hk : e.1 = k
    · subst hk
      rw [if_pos rfl]
      cases hget : dictGet (batchesBy n es) e.1 with
      | none =>
        dsimp only
        rw [dictGet_dictSet, if_pos rfl, hnone hget]
        refine ⟨nofun, ?_⟩
        rintro _ ⟨⟩
        exact ⟨List.cons_ne_nil _ _, Batched.singleton hn e.2⟩
      | some batches =>
        obtain ⟨hne, hbatched⟩ := hsome batches hget
        dsimp only
        rw [dictGet_dictSet, if_pos rfl]
        refine ⟨nofun, ?_⟩
        rintro _ ⟨⟩
        exact ⟨List.append_ne_nil_of_right_ne_nil _ (List.cons_ne_nil _ _),
          batched_push hn hbatched hne e.2⟩
    · rw [if_neg hk, List.append_nil]
      have hother : ∀ bs, dictGet (dictSet (batchesBy n es) e.1 bs) k =
          dictGet (batchesBy n es) k := by
        intro bs
        rw [dictGet_dictSet, if_neg hk]
      cases dictGet (batchesBy n es) e.1 with
      | none => exact (hother [[e.2]]).symm ▸ ⟨hnone, hsome⟩
      | some batches => exact (hother (push n batches e.2)).symm ▸ ⟨hnone, hsome⟩

/-- All batches with their keys, those of one key after those of the other. -/
def labelled (grouped : List (κ × List (List α))) : List (κ × List α) :=
  grouped.flatMap fun p => p.2.map fun batch => (p.1, batch)

theorem ofKey_labelled {grouped : List (κ × List (List α))}
    (h : (grouped.map Prod.fst).Nodup) (k : κ) :
    ofKey (labelled grouped) k = (dictGet grouped k).getD [] := by
  induction grouped with
  | nil => rfl
  | cons p grouped ih =>
    obtain ⟨hp, hnodup⟩ := List.nodup_cons.1 h
    have hcons : ofKey (labelled (p :: grouped)) k =
        (if p.1 = k then p.2 else []) ++ ofKey (labelled grouped) k := by
      rw [labelled, List.flatMap_cons, ofKey, List.filter_append, List.map_append]
      congr 1
      rw [List.filter_map, List.map_map]
      by_cases hk : p.1 = k
      · have htrue : ((fun e : κ × List α => decide (e.1 = k)) ∘ fun batch => (p.1, batch)) =
            fun _ => true := by
          funext batch
          exact decide_eq_true hk
        rw [htrue, List.filter_true, if_pos hk]
        exact List.map_id p.2
      · have hfalse : ((fun e : κ × List α => decide (e.1 = k)) ∘ fun batch => (p.1, batch)) =
            fun _ => false := by
          funext batch
          exact decide_eq_false hk
        rw [hfalse, List.filter_false, if_neg hk]
        rfl
    have hget : dictGet (p :: grouped) k = if p.1 = k then some p.2 else dictGet grouped k := by
      by_cases hk : p.1 = k <;> simp [dictGet, hk]
    rw [hcons, ih hnodup, hget]
    by_cases hk : p.1 = k
    · have hnone : dictGet grouped k = none := dictGet_eq_none_iff.2 (hk ▸ hp)
      simp [hk, hnone]
    · simp [hk]

/-- The batches of a key are those of its elements, also if there are none. -/
theorem batched_ofKey_labelled (hn : 1 ≤ n) (es : List (κ × α)) (k : κ) :
    Batched n (ofKey (labelled (batchesBy n es)) k) (ofKey es k) := by
  rw [ofKey_labelled (nodup_keys_batchesBy n es)]
  obtain ⟨hnone, hsome⟩ := dictGet_batchesBy hn es k
  cases hget : dictGet (batchesBy n es) k with
  | none =>
    rw [hnone hget]
    exact ⟨rfl, nofun, nofun, nofun⟩
  | some batches => exact (hsome batches hget).2

/-- The batches of a key hold its elements, whatever the size. -/
theorem flatten_dictGet_batchesBy (n : ℕ) (es : List (κ × α)) (k : κ) :
    ((dictGet (batchesBy n es) k).getD []).flatten = ofKey es k := by
  induction es using List.reverseRecOn with
  | nil => rfl
  | append_singleton es e ih =>
    rw [batchesBy_append_singleton, pushBy, ofKey_append_singleton, ← ih]
    by_cases hk : e.1 = k
    · subst hk
      cases hget : dictGet (batchesBy n es) e.1 with
      | none => simp [dictGet_dictSet]
      | some batches => simp [dictGet_dictSet, flatten_push]
    · cases dictGet (batchesBy n es) e.1 <;> simp [dictGet_dictSet, hk]

/-- The elements of a batch of a key have the key. -/
theorem mem_of_mem_labelled {n : ℕ} {es : List (κ × α)} {b : κ × List α} {a : α}
    (hb : b ∈ labelled (batchesBy n es)) (ha : a ∈ b.2) : (b.1, a) ∈ es := by
  have hmem : b.2 ∈ ofKey (labelled (batchesBy n es)) b.1 :=
    List.mem_map_of_mem (List.mem_filter.2 ⟨hb, decide_eq_true rfl⟩)
  rw [ofKey_labelled (nodup_keys_batchesBy n es)] at hmem
  have ha' : a ∈ ofKey es b.1 :=
    flatten_dictGet_batchesBy n es b.1 ▸ List.mem_flatten.2 ⟨b.2, hmem, ha⟩
  obtain ⟨e, he, rfl⟩ := List.mem_map.1 ha'
  obtain ⟨he, hkey⟩ := List.mem_filter.1 he
  rw [← of_decide_eq_true hkey]
  exact he

/-- Every batch is one of the batches of its key. -/
theorem mem_ofKey {es : List (κ × α)} {e : κ × α} (h : e ∈ es) : e.2 ∈ ofKey es e.1 :=
  List.mem_map_of_mem (List.mem_filter.2 ⟨h, decide_eq_true rfl⟩)

end Series

end Svoe
