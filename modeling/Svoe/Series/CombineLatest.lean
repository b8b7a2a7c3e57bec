import Mathlib.Data.List.Basic
import Mathlib.Data.List.Induction
import Mathlib.Logic.Function.Basic

/-!
# The latest values of keyed events

Events with keys come one after the other, and a node joins the latest value of every key of a list:
it emits with every event of one of the keys, once all of them have been seen.

* `latest_append_singleton` : an event is the latest of its key, and of no other.
* `allSeen_append_iff_of_not_emits` : without an emission there is nothing new to be joined.
* `seenFirst_append_singleton_iff` : by every emission a key has come again.
-/

namespace Svoe

namespace CombineLatest

variable {κ β : Type*}

/-- The latest value of a key. -/
def latest [DecidableEq κ] (events : List (κ × β)) (k : κ) : Option β :=
  ((events.filter fun p => p.1 = k).getLast?).map Prod.snd

/-- Every key has been seen. -/
def AllSeen (keys : List κ) (events : List (κ × β)) : Prop := ∀ k ∈ keys, k ∈ events.map Prod.fst

/-- The join emits with an event. -/
def EmitsAt (keys : List κ) (before : List (κ × β)) (p : κ × β) : Prop :=
  p.1 ∈ keys ∧ AllSeen keys (before ++ [p])

/-- The join emits with one of the events of a group. -/
def Emits (keys : List κ) (before group : List (κ × β)) : Prop :=
  ∃ pre p post, group = pre ++ p :: post ∧ EmitsAt keys (before ++ pre) p

/-- Whenever the join emits in a group, the group has had an event of the key by then. -/
def SeenFirst (keys : List κ) (k : κ) (before group : List (κ × β)) : Prop :=
  ∀ pre p post, group = pre ++ p :: post → EmitsAt keys (before ++ pre) p →
    k ∈ (pre ++ [p]).map Prod.fst

variable {keys : List κ} {k : κ} {before group events : List (κ × β)} {p : κ × β}

section Latest

variable [DecidableEq κ]

/-- **An event** is the latest of its key, and of no other. -/
theorem latest_append_singleton :
    latest (events ++ [p]) k = if p.1 = k then some p.2 else latest events k := by
  unfold latest
  rw [List.filter_append]
  by_cases hk : p.1 = k
  · simp [hk]
  · simp [hk]

theorem latest_append_singleton_eq_update :
    latest (events ++ [p]) = Function.update (latest events) p.1 (some p.2) := by
  funext k
  rw [latest_append_singleton, Function.update_apply]
  by_cases hk : p.1 = k
  · rw [if_pos hk, if_pos hk.symm]
  · rw [if_neg hk, if_neg (Ne.symm hk)]

theorem latest_eq_none_iff : latest events k = none ↔ k ∉ events.map Prod.fst := by
  unfold latest
  rw [Option.map_eq_none_iff, List.getLast?_eq_none_iff, List.filter_eq_nil_iff, List.mem_map]
  simp only [decide_eq_true_eq, not_exists, not_and]

theorem allSeen_iff : AllSeen keys events ↔ ∀ k ∈ keys, latest events k ≠ none := by
  refine forall₂_congr fun k _ => ?_
  rw [Ne, latest_eq_none_iff, not_not]

/-- The latest value is that of an event. -/
theorem mem_of_latest {b : β} (h : latest events k = some b) : (k, b) ∈ events := by
  obtain ⟨q, hq, rfl⟩ := Option.map_eq_some_iff.1 h
  have hmem := List.mem_filter.1 (List.mem_of_getLast? hq)
  rw [← of_decide_eq_true hmem.2]
  exact hmem.1

/-- The latest value of a key that a group has an event of is from the group. -/
theorem latest_append_of_mem (h : k ∈ group.map Prod.fst) :
    latest (before ++ group) k = latest group k := by
  have hne : group.filter (fun q => q.1 = k) ≠ [] := by
    obtain ⟨q, hq, hqk⟩ := List.mem_map.1 h
    exact List.ne_nil_of_mem (List.mem_filter.2 ⟨hq, by simpa using hqk⟩)
  unfold latest
  rw [List.filter_append, List.getLast?_append_of_ne_nil _ hne]

theorem latest_append_of_not_mem (h : k ∉ group.map Prod.fst) :
    latest (before ++ group) k = latest before k := by
  have hnil : group.filter (fun q => q.1 = k) = [] :=
    List.filter_eq_nil_iff.2 fun q hq hqk => h (List.mem_map.2 ⟨q, hq, by simpa using hqk⟩)
  unfold latest
  rw [List.filter_append, hnil, List.append_nil]

end Latest

theorem AllSeen.append (h : AllSeen keys before) : AllSeen keys (before ++ group) := by
  intro k hk
  rw [List.map_append]
  exact List.mem_append_left _ (h k hk)

/-- An event of another key makes no key seen. -/
theorem allSeen_append_singleton_iff (h : p.1 ∉ keys) :
    AllSeen keys (before ++ [p]) ↔ AllSeen keys before := by
  refine ⟨fun hall k hk => ?_, AllSeen.append⟩
  have hmem := hall k hk
  rw [List.map_append, List.mem_append, List.map_singleton, List.mem_singleton] at hmem
  exact hmem.resolve_right fun heq => h (heq ▸ hk)

/-- A place in a list with one more element. -/
theorem append_singleton_eq_append_cons_iff {q : κ × β} {pre post : List (κ × β)} :
    group ++ [q] = pre ++ p :: post ↔
      (group = pre ∧ q = p ∧ post = []) ∨
        ∃ post', group = pre ++ p :: post' ∧ post = post' ++ [q] := by
  constructor
  · intro h
    rcases post.eq_nil_or_concat with rfl | ⟨post', q', rfl⟩
    · obtain ⟨rfl, hq⟩ := List.append_inj' h rfl
      exact .inl ⟨rfl, (List.cons.inj hq).1, rfl⟩
    · rw [List.concat_eq_append, ← List.cons_append, ← List.append_assoc] at h
      obtain ⟨rfl, hq⟩ := List.append_inj' h rfl
      exact .inr ⟨post', rfl, by rw [List.concat_eq_append, (List.cons.inj hq).1]⟩
  · rintro (⟨rfl, rfl, rfl⟩ | ⟨post', rfl, rfl⟩)
    · rfl
    · simp

theorem emits_append_singleton_iff : Emits keys before (group ++ [p]) ↔
    Emits keys before group ∨ EmitsAt keys (before ++ group) p := by
  constructor
  · rintro ⟨pre, q, post, hgroup, hemits⟩
    rcases append_singleton_eq_append_cons_iff.1 hgroup with ⟨rfl, rfl, -⟩ | ⟨post', rfl, -⟩
    · exact .inr hemits
    · exact .inl ⟨pre, q, post', rfl, hemits⟩
  · rintro (⟨pre, q, post, rfl, hemits⟩ | hemits)
    · exact ⟨pre, q, post ++ [p], by simp, hemits⟩
    · exact ⟨group, p, [], rfl, hemits⟩

theorem seenFirst_append_singleton_iff :
    SeenFirst keys k before (group ++ [p]) ↔ SeenFirst keys k before group ∧
      (EmitsAt keys (before ++ group) p → k ∈ (group ++ [p]).map Prod.fst) := by
  constructor
  · intro h
    exact ⟨fun pre q post hgroup hemits => h pre q (post ++ [p]) (by simp [hgroup]) hemits,
      fun hemits => h group p [] rfl hemits⟩
  · rintro ⟨h, hp⟩ pre q post hgroup hemits
    rcases append_singleton_eq_append_cons_iff.1 hgroup with ⟨rfl, rfl, -⟩ | ⟨post', rfl, -⟩
    · exact hp hemits
    · exact h pre q post' rfl hemits

/-- All keys have been seen by an emission. -/
theorem Emits.allSeen (h : Emits keys before group) : AllSeen keys (before ++ group) := by
  obtain ⟨pre, p, post, rfl, -, hall⟩ := h
  have hsplit : before ++ (pre ++ p :: post) = (before ++ pre ++ [p]) ++ post := by simp
  rw [hsplit]
  exact hall.append

/-- A key that came before the first emission has come before all. -/
theorem SeenFirst.append_singleton (h : SeenFirst keys k before group)
    (hemits : Emits keys before group) : SeenFirst keys k before (group ++ [p]) := by
  refine seenFirst_append_singleton_iff.2 ⟨h, fun _ => ?_⟩
  obtain ⟨pre, q, post, rfl, hq⟩ := hemits
  have hmem := h pre q post rfl hq
  rw [show pre ++ q :: post ++ [p] = (pre ++ [q]) ++ (post ++ [p]) by simp, List.map_append]
  exact List.mem_append_left _ hmem

/-- **Without an emission** there is nothing new to be joined. -/
theorem allSeen_append_iff_of_not_emits (h : ¬ Emits keys before group) :
    AllSeen keys (before ++ group) ↔ AllSeen keys before := by
  induction group using List.reverseRecOn with
  | nil => rw [List.append_nil]
  | append_singleton group p ih =>
    rw [emits_append_singleton_iff, not_or] at h
    obtain ⟨hgroup, hp⟩ := h
    rw [← ih hgroup, ← List.append_assoc]
    by_cases hkey : p.1 ∈ keys
    · refine ⟨fun hall => absurd ⟨hkey, hall⟩ hp, AllSeen.append⟩
    · exact allSeen_append_singleton_iff hkey

/-- Once all keys have been seen, every event of a key is emitted with. -/
theorem emits_of_allSeen (h : AllSeen keys before) (hp : p ∈ group) (hkey : p.1 ∈ keys) :
    Emits keys before group := by
  obtain ⟨pre, post, rfl⟩ := List.append_of_mem hp
  exact ⟨pre, p, post, rfl, hkey, by rw [List.append_assoc]; exact h.append⟩

end CombineLatest

end Svoe
