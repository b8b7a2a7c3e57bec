import Mathlib.Data.List.Forall2
import Svoe.Blocks.Overlaps

/-!
# What the overlaps are

For dictionaries whose keys are closed intervals, `get_overlaps` gives all non-empty intersections
of one interval for each key.

* `mem_getOverlaps_iff` : the items of the result, by choices of one item from each dictionary.
* `exists_perm_getOverlaps` : the order of the dictionaries does not matter.
* `mem_overlaps_iff_forall_mem_domain` : the result covers the common domain.
* `getOverlaps_intersections` : all of it in one statement.
-/

namespace Svoe

open Portion

variable {K : Type*} [LinearOrder K] {κ V : Type*}

/-! ### Choices -/

/-- One item from each dictionary, with its key. -/
def IsChoice (ds : List (κ × IntervalDict (Cut K) V)) (cs : List (κ × ClosedInterval K × V)) :
    Prop :=
  List.Forall₂ (fun kd c => kd.1 = c.1 ∧ (c.2.1.toInterval, c.2.2) ∈ kd.2.items) ds cs

/-- The values of a choice, as a dict. -/
def choiceValues (cs : List (κ × ClosedInterval K × V)) : List (κ × V) :=
  cs.map fun c => (c.1, c.2.2)

/-- The cuts where the dictionaries have the values of a choice are those in all its intervals. -/
theorem IsChoice.jointLookup_eq_iff {ds : List (κ × IntervalDict (Cut K) V)}
    {cs : List (κ × ClosedInterval K × V)} (h : IsChoice ds cs) {c : Cut K} :
    jointLookup c ds = some (choiceValues cs) ↔ ∀ x ∈ cs, c ∈ x.2.1.toInterval := by
  rw [jointLookup_eq_some_iff]
  induction h with
  | nil => simp [choiceValues]
  | @cons kd x ds cs hx _ ih =>
    rw [choiceValues, List.map_cons, List.forall₂_cons, List.forall_mem_cons, ← ih,
      (IntervalDict.mem_items_iff.1 hx.2).2 c, and_iff_right hx.1]
    rfl

/-- Values that closed-keyed dictionaries have at a cut are those of a choice. -/
theorem exists_isChoice {ds : List (κ × IntervalDict (Cut K) V)}
    (hcl : ∀ kd ∈ ds, ClosedKeys kd.2) {c : Cut K} {m : List (κ × V)}
    (h : jointLookup c ds = some m) : ∃ cs, IsChoice ds cs ∧ m = choiceValues cs := by
  rw [jointLookup_eq_some_iff] at h
  induction h with
  | nil => exact ⟨[], .nil, rfl⟩
  | @cons kd kv ds m hkv _ ih =>
    obtain ⟨cs, hcs, rfl⟩ := ih fun kd hkd => hcl kd (List.mem_cons_of_mem _ hkd)
    obtain ⟨J, hJ, -⟩ := IntervalDict.lookup_eq_some_iff.1 hkv.2
    obtain ⟨I, rfl⟩ := hcl kd List.mem_cons_self _ hJ
    exact ⟨(kd.1, I, kv.2) :: cs, .cons ⟨rfl, hJ⟩ hcs, by rw [hkv.1]; rfl⟩

/-! ### The items of the result -/

section

variable [DecidableEq κ] [DecidableEq V] {ds : List (κ × IntervalDict (Cut K) V)}
  {res : List (ClosedInterval K × List (κ × V))}

/-- **The overlaps are the non-empty intersections** of one interval for each key, with the values
of these intervals. -/
theorem mem_getOverlaps_iff (hne : ds ≠ []) (hcl : ∀ kd ∈ ds, ClosedKeys kd.2)
    (hres : getOverlaps ds = .ok res) {J : ClosedInterval K} {m : List (κ × V)} :
    (J, m) ∈ res ↔ J.lower ≤ J.upper ∧ ∃ cs, IsChoice ds cs ∧ m = choiceValues cs ∧
      ∀ t, t ∈ J ↔ ∀ x ∈ cs, t ∈ x.2.1 := by
  obtain ⟨res', hok, hmem, -⟩ := getOverlaps_spec hne hcl
  obtain rfl := Except.ok.inj (hres.symm.trans hok)
  rw [hmem]
  refine and_congr_right fun hle => ⟨fun hJ => ?_, ?_⟩
  · have hlow := (hJ (before J.lower)).1 (ClosedInterval.before_mem_toInterval.2 ⟨le_rfl, hle⟩)
    obtain ⟨cs, hcs, rfl⟩ := exists_isChoice hcl hlow
    refine ⟨cs, hcs, rfl, fun t => ?_⟩
    rw [← ClosedInterval.before_mem_toInterval, hJ, hcs.jointLookup_eq_iff]
    simp only [ClosedInterval.before_mem_toInterval]
  · rintro ⟨cs, hcs, rfl, hJ⟩ c
    have hlow : jointLookup (before J.lower) ds = some (choiceValues cs) :=
      hcs.jointLookup_eq_iff.2 fun x hx =>
        ClosedInterval.before_mem_toInterval.2 ((hJ J.lower).1 ⟨le_rfl, hle⟩ x hx)
    -- the cuts with these values form a closed interval, with the points of `J`
    obtain ⟨J', hJ'⟩ := exists_closedInterval_jointLookup hne hcl hlow
    have heq : J = J' := ClosedInterval.eq_of_mem_iff hle fun t => by
      rw [hJ, ← ClosedInterval.before_mem_toInterval (I := J'), hJ', hcs.jointLookup_eq_iff]
      simp only [ClosedInterval.before_mem_toInterval]
    rw [heq, hJ']

/-- **The result covers the common domain.** -/
theorem mem_overlaps_iff_forall_mem_domain (hne : ds ≠ []) (hcl : ∀ kd ∈ ds, ClosedKeys kd.2)
    (hres : getOverlaps ds = .ok res) {c : Cut K} :
    (∃ p ∈ res, c ∈ p.1.toInterval) ↔ ∀ kd ∈ ds, c ∈ kd.2.domain := by
  obtain ⟨res', hok, hmem, -⟩ := getOverlaps_spec hne hcl
  obtain rfl := Except.ok.inj (hres.symm.trans hok)
  simp only [IntervalDict.mem_domain]
  rw [← jointLookup_ne_none_iff, Option.ne_none_iff_exists']
  constructor
  · rintro ⟨⟨J, m⟩, hp, hc⟩
    exact ⟨m, (((hmem J m).1 hp).2 c).1 hc⟩
  · rintro ⟨m, hm⟩
    obtain ⟨J, hJ⟩ := exists_closedInterval_jointLookup hne hcl hm
    have hle : J.lower ≤ J.upper := ClosedInterval.toInterval_ne_empty_iff.1 fun he =>
      Interval.not_mem_empty c (he ▸ (hJ c).2 hm)
    exact ⟨(J, m), (hmem J m).2 ⟨hle, hJ⟩, (hJ c).2 hm⟩

theorem pairwise_overlaps (hne : ds ≠ []) (hcl : ∀ kd ∈ ds, ClosedKeys kd.2)
    (hres : getOverlaps ds = .ok res) : res.Pairwise fun p q => p.1.upper < q.1.lower := by
  obtain ⟨res', hok, -, hpair⟩ := getOverlaps_spec hne hcl
  obtain rfl := Except.ok.inj (hres.symm.trans hok)
  exact hpair

/-- A permutation of the dictionaries gives every overlap too, with the same values. -/
theorem exists_mem_perm_of_mem {ds' : List (κ × IntervalDict (Cut K) V)}
    {res' : List (ClosedInterval K × List (κ × V))} (hne : ds ≠ [])
    (hcl : ∀ kd ∈ ds, ClosedKeys kd.2) (hperm : ds.Perm ds') (hres : getOverlaps ds = .ok res)
    (hres' : getOverlaps ds' = .ok res') {J : ClosedInterval K} {m : List (κ × V)}
    (h : (J, m) ∈ res) : ∃ m', m'.Perm m ∧ (J, m') ∈ res' := by
  obtain ⟨hle, cs, hcs, rfl, hJ⟩ := (mem_getOverlaps_iff hne hcl hres).1 h
  obtain ⟨cs', hcs', hperm'⟩ := List.perm_comp_forall₂ hperm.symm hcs
  have hne' : ds' ≠ [] := fun hnil => hne (List.perm_nil.1 (hnil ▸ hperm))
  refine ⟨choiceValues cs', (hperm'.map _), (mem_getOverlaps_iff hne' (fun kd hkd =>
    hcl kd (hperm.mem_iff.2 hkd)) hres').2 ⟨hle, cs', hcs', rfl, fun t => ?_⟩⟩
  rw [hJ]
  exact forall_congr' fun x => imp_congr_left hperm'.mem_iff.symm

/-- **The order of the dictionaries does not matter**: the same intervals in the same order, with
the same values. -/
theorem exists_perm_getOverlaps {ds' : List (κ × IntervalDict (Cut K) V)} (hne : ds ≠ [])
    (hcl : ∀ kd ∈ ds, ClosedKeys kd.2) (hperm : ds.Perm ds') (hres : getOverlaps ds = .ok res) :
    ∃ res', getOverlaps ds' = .ok res' ∧ res'.map Prod.fst = res.map Prod.fst ∧
      ∀ p ∈ res, ∃ m, m.Perm p.2 ∧ (p.1, m) ∈ res' := by
  have hne' : ds' ≠ [] := fun hnil => hne (List.perm_nil.1 (hnil ▸ hperm))
  have hcl' : ∀ kd ∈ ds', ClosedKeys kd.2 := fun kd hkd => hcl kd (hperm.mem_iff.2 hkd)
  obtain ⟨res', hres', -⟩ := getOverlaps_spec hne' hcl'
  have hpair : (res.map Prod.fst).Pairwise fun I J => I.upper < J.lower :=
    List.pairwise_map.2 (pairwise_overlaps hne hcl hres)
  have hpair' : (res'.map Prod.fst).Pairwise fun I J => I.upper < J.lower :=
    List.pairwise_map.2 (pairwise_overlaps hne' hcl' hres')
  have hle : ∀ I ∈ res.map Prod.fst, I.lower ≤ I.upper := by
    rintro I hI
    obtain ⟨⟨J, m⟩, hJ, rfl⟩ := List.mem_map.1 hI
    exact ((mem_getOverlaps_iff hne hcl hres).1 hJ).1
  have hmem : ∀ I, I ∈ res'.map Prod.fst ↔ I ∈ res.map Prod.fst := by
    intro I
    simp only [List.mem_map]
    constructor
    · rintro ⟨⟨J, m⟩, hJ, rfl⟩
      obtain ⟨m', -, hm'⟩ := exists_mem_perm_of_mem hne' hcl' hperm.symm hres' hres hJ
      exact ⟨_, hm', rfl⟩
    · rintro ⟨⟨J, m⟩, hJ, rfl⟩
      obtain ⟨m', -, hm'⟩ := exists_mem_perm_of_mem hne hcl hperm hres hres' hJ
      exact ⟨_, hm', rfl⟩
  have hnodup : ∀ l : List (ClosedInterval K), (∀ I ∈ l, I.lower ≤ I.upper) →
      (l.Pairwise fun I J => I.upper < J.lower) → l.Nodup := by
    intro l hl hlp
    refine hlp.imp_of_mem fun {I J} hI _ hlt heq => ?_
    exact (hl I hI).not_gt (heq ▸ hlt)
  have hperm' : (res'.map Prod.fst).Perm (res.map Prod.fst) :=
    (List.perm_ext_iff_of_nodup (hnodup _ (fun I hI => hle I ((hmem I).1 hI)) hpair')
      (hnodup _ hle hpair)).2 hmem
  refine ⟨res', hres', hperm'.eq_of_pairwise (fun I J hI hJ hIJ hJI => ?_) hpair' hpair,
    fun p hp => exists_mem_perm_of_mem hne hcl hperm hres hres' hp⟩
  -- two intervals cannot each end before the other starts
  exact absurd (hIJ.trans_le (hle J hJ)) (hJI.trans_le (hle I ((hmem I).1 hI))).not_gt

/-- **The specification of `get_overlaps`** on dictionaries with closed keys: exactly the non-empty
intersections of one interval for each key, with the dict of their values; disjoint, covering the
common domain, and the same for every order of the dictionaries. -/
theorem getOverlaps_intersections (hne : ds ≠ []) (hcl : ∀ kd ∈ ds, ClosedKeys kd.2) :
    ∃ res, getOverlaps ds = .ok res ∧
      (∀ J m, (J, m) ∈ res ↔ J.lower ≤ J.upper ∧ ∃ cs, IsChoice ds cs ∧ m = choiceValues cs ∧
        ∀ t, t ∈ J ↔ ∀ x ∈ cs, t ∈ x.2.1) ∧
      (res.Pairwise fun p q => p.1.upper < q.1.lower) ∧
      (∀ c, (∃ p ∈ res, c ∈ p.1.toInterval) ↔ ∀ kd ∈ ds, c ∈ kd.2.domain) ∧
      ∀ ds', ds.Perm ds' → ∃ res', getOverlaps ds' = .ok res' ∧
        res'.map Prod.fst = res.map Prod.fst ∧
        ∀ p ∈ res, ∃ m, m.Perm p.2 ∧ (p.1, m) ∈ res' := by
  obtain ⟨res, hres, -⟩ := getOverlaps_spec hne hcl
  exact ⟨res, hres, fun J m => mem_getOverlaps_iff hne hcl hres, pairwise_overlaps hne hcl hres,
    fun c => mem_overlaps_iff_forall_mem_domain hne hcl hres,
    fun ds' hperm => exists_perm_getOverlaps hne hcl hperm hres⟩

end

/-- A dictionary with closed keys. -/
def closedDict {V : Type*} [DecidableEq V] (l : List (ClosedInterval ℚ × V)) :
    IntervalDict (Cut ℚ) V :=
  .ofItems (l.map fun p => (p.1.toInterval, p.2))

theorem closedKeys_closedDict [DecidableEq V] {l : List (ClosedInterval ℚ × V)}
    (hle : ∀ p ∈ l, p.1.lower ≤ p.1.upper)
    (hl : l.Pairwise fun p q => p.1.upper < q.1.lower ∧ p.2 ≠ q.2) :
    ClosedKeys (closedDict l) := by
  intro p hp
  rw [closedDict, IntervalDict.items_ofItems_closed hle hl] at hp
  obtain ⟨q, -, rfl⟩ := List.mem_map.1 hp
  exact ⟨q.1, rfl⟩

/-- The dictionaries of two keys. -/
def twoKeys : List (String × IntervalDict (Cut ℚ) String) :=
  [("key_1", closedDict [(⟨1, 4⟩, "a"), (⟨41 / 10, 8⟩, "b"), (⟨9, 15⟩, "c")]),
   ("key_2", closedDict [(⟨2, 5⟩, "d"), (⟨6, 7⟩, "e"), (⟨9, 20⟩, "f")])]

theorem getOverlaps_intersections_twoKeys :
    ∃ res, getOverlaps twoKeys = .ok res ∧
      res = [(⟨2, 4⟩, [("key_1", "a"), ("key_2", "d")]),
        (⟨41 / 10, 5⟩, [("key_1", "b"), ("key_2", "d")]),
        (⟨6, 7⟩, [("key_1", "b"), ("key_2", "e")]),
        (⟨9, 15⟩, [("key_1", "c"), ("key_2", "f")])] ∧
      ∃ res', getOverlaps twoKeys.reverse = .ok res' ∧ res'.map Prod.fst = res.map Prod.fst := by
  have hcl : ∀ kd ∈ twoKeys, ClosedKeys kd.2 := by
    intro kd hkd
    rcases List.mem_pair.1 hkd with rfl | rfl
    · exact closedKeys_closedDict (by decide +kernel) (by decide +kernel)
    · exact closedKeys_closedDict (by decide +kernel) (by decide +kernel)
  obtain ⟨res, hres, -, -, -, hperm⟩ := getOverlaps_intersections (by simp [twoKeys]) hcl
  obtain ⟨res', hres', hmap, -⟩ := hperm _ twoKeys.reverse_perm.symm
  refine ⟨res, hres, Except.ok.inj (hres.symm.trans ?_), res', hres', hmap⟩
  decide +kernel

end Svoe
