import Mathlib.Logic.Function.Basic
import Svoe.Common.Dict

/-!
# Logs of changes

A source is read again and again; what is read is a list of values under keys, and a log gets those
that differ from what was read before (`delta`).  A value is the same as another one by a relation
of the reader's choice.

* `agrees_applyItems` : the logged values, put together, agree with what was read last.
* `delta_self` : nothing is logged for what is read again.
-/

namespace Svoe

namespace DeltaLog

variable {κ υ : Type*} [DecidableEq κ] (same : υ → υ → Bool)

/-- The value is the one that was read before. -/
def unchanged (last : List (κ × υ)) (p : κ × υ) : Bool :=
  (dictGet last p.1).any fun v => same p.2 v

/-- What differs from what was read before. -/
def delta (last current : List (κ × υ)) : List (κ × υ) :=
  current.filter fun p => !unchanged same last p

/-- Put the values of a log into what is known. -/
def applyItems (known : κ → Option υ) (items : List (κ × υ)) : κ → Option υ :=
  items.foldl (fun known p => Function.update known p.1 (some p.2)) known

/-- What is known of everything that was read is the same as what was read. -/
def Agrees (known : κ → Option υ) (current : List (κ × υ)) : Prop :=
  ∀ p ∈ current, ∃ v, known p.1 = some v ∧ same p.2 v

variable {same} {known : κ → Option υ} {last current : List (κ × υ)} {k : κ}

omit same in
theorem applyItems_of_not_mem {items : List (κ × υ)} (h : k ∉ items.map Prod.fst) :
    applyItems known items k = known k := by
  induction items generalizing known with
  | nil => rfl
  | cons p items ih =>
    rw [List.map_cons, List.mem_cons, not_or] at h
    exact (ih h.2).trans (Function.update_of_ne h.1 _ _)

omit same in
theorem applyItems_of_mem {items : List (κ × υ)} (hkeys : (items.map Prod.fst).Nodup) {p : κ × υ}
    (hp : p ∈ items) : applyItems known items p.1 = some p.2 := by
  induction items generalizing known with
  | nil => cases hp
  | cons q items ih =>
    rw [List.map_cons, List.nodup_cons] at hkeys
    rcases List.mem_cons.1 hp with rfl | hp
    · exact (applyItems_of_not_mem hkeys.1).trans (Function.update_self _ _ _)
    · exact ih hkeys.2 hp

/-- **The log of the changes has what was read**, if it had what was read before. -/
theorem agrees_applyItems (hrefl : ∀ v, same v v)
    (htrans : ∀ u v w, same u v → same v w → same u w) (hkeys : (current.map Prod.fst).Nodup)
    (h : Agrees same known last) :
    Agrees same (applyItems known (delta same last current)) current := by
  intro p hp
  by_cases hunchanged : unchanged same last p
  · -- an unchanged value is not in the log, which has the one before
    have hnot : p.1 ∉ (delta same last current).map Prod.fst := by
      rintro hmem
      obtain ⟨q, hq, hqp⟩ := List.mem_map.1 hmem
      obtain ⟨hq, hchanged⟩ := List.mem_filter.1 hq
      obtain rfl := List.inj_on_of_nodup_map hkeys hq hp hqp
      simp [hunchanged] at hchanged
    obtain ⟨v, hv, hsame⟩ := Option.any_eq_true .. |>.1 hunchanged
    obtain ⟨w, hw, hsame'⟩ := h _ (mem_of_dictGet hv)
    exact ⟨w, (applyItems_of_not_mem hnot).trans hw, htrans _ _ _ hsame hsame'⟩
  · have hmem : p ∈ delta same last current := List.mem_filter.2 ⟨hp, by simp [hunchanged]⟩
    have hkeys' : ((delta same last current).map Prod.fst).Nodup :=
      hkeys.sublist (List.filter_sublist.map _)
    exact ⟨p.2, applyItems_of_mem hkeys' hmem, hrefl _⟩

/-- **What is read again is not logged.** -/
theorem delta_self (hrefl : ∀ v, same v v) (hkeys : (current.map Prod.fst).Nodup) :
    delta same current current = [] := by
  refine List.filter_eq_nil_iff.2 fun p hp => ?_
  have hget : dictGet current p.1 = some p.2 := (dictGet_eq_some_iff hkeys).2 hp
  simp [unchanged, hget, hrefl]

end DeltaLog

end Svoe
