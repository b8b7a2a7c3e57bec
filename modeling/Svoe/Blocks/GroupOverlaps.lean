import Svoe.Blocks.Overlaps
import Svoe.Portion.Bounds

/-!
# Overlaps of groups

The keys of groupings may touch, so that they are not closed intervals any more.  What
`get_overlaps` gives is still a dict in the order of its intervals, whose values are those of the
arguments and whose ends are ends of the arguments.

* `values_of_mem_getOverlaps`, `bounds_of_mem_getOverlaps`
* `pairwise_lower_getOverlaps`, `nodup_keys_getOverlaps`
-/

namespace Svoe

open Portion

variable {K : Type*} [LinearOrder K] {κ V : Type*}

theorem overlapItem_eq_some_iff {p : Portion.Interval (Cut K) × OverlapValue κ V}
    {J : ClosedInterval K} {m : List (κ × V)} :
    overlapItem p = some (J, m) ↔ p.1.hull = some J ∧ p.2 = .named m := by
  obtain ⟨I, v⟩ := p
  cases v <;> simp [overlapItem]

variable [DecidableEq κ] [DecidableEq V] {ds : List (κ × IntervalDict (Cut K) V)}
  {res : List (ClosedInterval K × List (κ × V))} {J : ClosedInterval K} {m : List (κ × V)}

/-- An item of the result is the hull of an item of the join. -/
theorem exists_of_mem_getOverlaps (hres : getOverlaps ds = .ok res) (h : (J, m) ∈ res) :
    ∃ kd rest I, ds = kd :: rest ∧ (I, OverlapValue.named m) ∈ (joinOverlaps kd rest).items ∧
      I.hull = some J := by
  cases ds with
  | nil => cases hres
  | cons kd rest =>
    rw [← Except.ok.inj hres] at h
    have hmem := (mem_or_mem_of_mem_dictUpdate (d := []) h).resolve_left List.not_mem_nil
    obtain ⟨⟨I, v⟩, hp, hitem⟩ := List.mem_filterMap.1 hmem
    obtain ⟨hhull, rfl⟩ := overlapItem_eq_some_iff.1 hitem
    exact ⟨kd, rest, I, rfl, hp, hhull⟩

/-- **The values of an overlap** are one of each argument, in their order. -/
theorem values_of_mem_getOverlaps (hres : getOverlaps ds = .ok res) (h : (J, m) ∈ res) :
    List.Forall₂ (fun kd kv => kv.1 = kd.1 ∧ kv.2 ∈ kd.2.values) ds m := by
  obtain ⟨kd, rest, I, rfl, hp, -⟩ := exists_of_mem_getOverlaps hres h
  obtain ⟨hne, hmem⟩ := IntervalDict.mem_items_iff.1 hp
  obtain ⟨c, hc⟩ := Interval.exists_mem hne
  have hl := (hmem c).1 hc
  rw [lookup_joinOverlaps, Option.map_eq_some_iff] at hl
  obtain ⟨m', hm', heq⟩ := hl
  obtain rfl := OverlapValue.named.inj heq
  refine (jointLookup_eq_some_iff.1 hm').imp fun {kd kv} hkv => ⟨hkv.1.symm, ?_⟩
  obtain ⟨i, hi, -⟩ := IntervalDict.lookup_eq_some_iff.1 hkv.2
  exact List.mem_map.2 ⟨(i, kv.2), hi, rfl⟩

theorem lower_le_upper_of_mem_getOverlaps (hres : getOverlaps ds = .ok res) (h : (J, m) ∈ res) :
    J.lower ≤ J.upper := by
  obtain ⟨-, -, I, -, -, hhull⟩ := exists_of_mem_getOverlaps hres h
  exact Interval.lower_le_upper_of_hull hhull

theorem boundsIn_joinOverlaps {S : Cut K → Prop} {kd : κ × IntervalDict (Cut K) V}
    {rest : List (κ × IntervalDict (Cut K) V)} (h : ∀ kd' ∈ kd :: rest, kd'.2.BoundsIn S) :
    (joinOverlaps kd rest).BoundsIn S := by
  obtain ⟨hkd, hrest⟩ := List.forall_mem_cons.1 h
  have hfirst : (IntervalDict.ofItems (kd.2.items.map fun p =>
      (p.1, OverlapValue.named [(kd.1, p.2)]))).BoundsIn S :=
    IntervalDict.boundsIn_ofItems (List.forall_mem_map.2 hkd)
  rw [joinOverlaps]
  generalize IntervalDict.ofItems (kd.2.items.map fun p =>
    (p.1, OverlapValue.named [(kd.1, p.2)])) = d at hfirst
  clear h hkd
  induction rest generalizing d with
  | nil => exact hfirst
  | cons kd' rest ih =>
    obtain ⟨hkd', hrest⟩ := List.forall_mem_cons.1 hrest
    exact ih hrest _ ((hfirst.combine hkd').restrict (hfirst.domain.inter hkd'.domain))

/-- **The ends of an overlap** are ends of the arguments. -/
theorem bounds_of_mem_getOverlaps {S : K → Prop}
    (hS : ∀ kd ∈ ds, kd.2.BoundsIn fun c => S (ofLex c).1) (hres : getOverlaps ds = .ok res)
    (h : (J, m) ∈ res) : S J.lower ∧ S J.upper := by
  obtain ⟨kd, rest, I, rfl, hp, hhull⟩ := exists_of_mem_getOverlaps hres h
  exact (boundsIn_joinOverlaps hS _ hp).hull hhull

/-- The overlaps are a dict. -/
theorem nodup_keys_getOverlaps (hres : getOverlaps ds = .ok res) : (res.map Prod.fst).Nodup := by
  cases ds with
  | nil => cases hres
  | cons kd rest =>
    rw [← Except.ok.inj hres]
    exact nodup_keys_dictUpdate (d := []) List.nodup_nil _

/-- The overlaps are in the order of their lower ends. -/
theorem pairwise_lower_getOverlaps (hres : getOverlaps ds = .ok res) :
    (res.map Prod.fst).Pairwise fun I J => I.lower ≤ J.lower := by
  cases ds with
  | nil => cases hres
  | cons kd rest =>
    rw [← Except.ok.inj hres]
    refine List.Pairwise.sublist (keys_dictOf_sublist _) (List.pairwise_map.2 ?_)
    refine List.Pairwise.filterMap overlapItem ?_ (joinOverlaps kd rest).sorted
    rintro p q hle ⟨J, m⟩ hp ⟨J', m'⟩ hq
    exact Interval.lower_le_lower_of_hull (overlapItem_eq_some_iff.1 hp).1
      (overlapItem_eq_some_iff.1 hq).1 hle

end Svoe
