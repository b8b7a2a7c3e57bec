import Svoe.Blocks.Basic
import Svoe.Common.Dict

/-!
# Overlaps of several interval dictionaries

`get_overlaps` joins one interval dictionary per key into one that maps every maximal common piece
to the values of all keys there.  It is an outer join of the first dictionary with each of the
others, cut to the common domain after every step.

At a single cut the result is the joint lookup of all dictionaries (`lookup_joinOverlaps`).  When
all keys are closed intervals, so are the pieces (`getOverlaps_spec`).
-/

namespace Svoe

open Portion

variable {K : Type*} [LinearOrder K] {κ V : Type*}

/-- The values of the dictionary under construction: a dict of the values found so far, or (from
the outer join) a bare value of the dictionary that is being joined. -/
inductive OverlapValue (κ V : Type*) where
  | named (m : List (κ × V))
  | bare (v : V)
  deriving DecidableEq

/-- The local function `concat` of `get_overlaps`.  The restriction after each join leaves no bare
value (`lookup_overlapStep`). -/
def OverlapValue.concat (key : κ) : OverlapValue κ V → V → OverlapValue κ V
  | .named m, v => .named (m ++ [(key, v)])
  | .bare w, _ => .bare w

section

variable [DecidableEq κ] [DecidableEq V]

/-- One round of the loop over the keys: outer join, then the inner part of it. -/
def overlapStep (d : IntervalDict (Cut K) (OverlapValue κ V))
    (kd : κ × IntervalDict (Cut K) V) : IntervalDict (Cut K) (OverlapValue κ V) :=
  (d.combine id .bare (OverlapValue.concat kd.1) kd.2).restrict (d.domain.inter kd.2.domain)

/-- The dictionary `d` at the end of `get_overlaps`. -/
def joinOverlaps (kd : κ × IntervalDict (Cut K) V) (rest : List (κ × IntervalDict (Cut K) V)) :
    IntervalDict (Cut K) (OverlapValue κ V) :=
  rest.foldl overlapStep
    (.ofItems (kd.2.items.map fun p => (p.1, .named [(kd.1, p.2)])))

/-- An item of the result: the closed hull of the key, and the dict of its values. -/
def overlapItem (p : Portion.Interval (Cut K) × OverlapValue κ V) :
    Option (ClosedInterval K × List (κ × V)) :=
  match p.2 with
  | .named m => p.1.hull.map fun I => (I, m)
  | .bare _ => none

/-- `get_overlaps`. -/
def getOverlaps (ds : List (κ × IntervalDict (Cut K) V)) :
    Except PyError (List (ClosedInterval K × List (κ × V))) :=
  match ds with
  | [] => .error .index
  | kd :: rest => .ok (dictOf ((joinOverlaps kd rest).items.filterMap overlapItem))

end

/-- `overlaps_keys`. -/
def overlapsKeys {V : Type*} (I : Portion.Interval (Cut K)) (d : IntervalDict (Cut K) V) : Bool :=
  d.items.any fun p => p.1.inter I ≠ .empty

/-! ### Pruning -/

/-- The inner loop of `prune_overlaps`: the elements of a range that overlap the interval.
`interval` reads an element's interval. -/
def pruneRange {E : Type*} (interval : E → Except PyError (ClosedInterval K))
    (I : ClosedInterval K) : List E → Except PyError (List E)
  | [] => .ok []
  | e :: es =>
    match interval e with
    | .error err => .error err
    | .ok J => (pruneRange interval I es).map fun pruned =>
        if I.toInterval.inter J.toInterval ≠ .empty then e :: pruned else pruned

/-- The elements of one key, of which some have to remain. -/
def pruneKey {E : Type*} (interval : E → Except PyError (ClosedInterval K))
    (I : ClosedInterval K) (kv : κ × List E) : Except PyError (κ × List E) :=
  match pruneRange interval I kv.2 with
  | .error err => .error err
  | .ok [] => .error (.value "Unable to prune key")
  | .ok (e :: es) => .ok (kv.1, e :: es)

/-- `prune_overlaps`. -/
def pruneOverlaps {E : Type*} (interval : E → Except PyError (ClosedInterval K))
    (overlaps : List (ClosedInterval K × List (κ × List E))) :
    Except PyError (List (ClosedInterval K × List (κ × List E))) :=
  overlaps.mapM fun p => (p.2.mapM (pruneKey interval p.1)).map fun m => (p.1, m)

/-- Pruning keeps the elements that overlap the interval. -/
theorem pruneRange_eq_ok {E : Type*} {interval : E → Except PyError (ClosedInterval K)}
    {I : ClosedInterval K} {g : E → ClosedInterval K} {es : List E}
    (h : ∀ e ∈ es, interval e = .ok (g e)) :
    pruneRange interval I es =
      .ok (es.filter fun e => I.toInterval.inter (g e).toInterval ≠ .empty) := by
  induction es with
  | nil => rfl
  | cons e es ih =>
    rw [pruneRange, h e List.mem_cons_self, ih fun e' he' => h e' (List.mem_cons_of_mem _ he'),
      List.filter_cons]
    simp only [Except.map, decide_eq_true_eq]

/-- A key can be pruned if one of its elements overlaps the interval. -/
theorem pruneKey_eq_ok_iff {E : Type*} {interval : E → Except PyError (ClosedInterval K)}
    {I : ClosedInterval K} {g : E → ClosedInterval K} {kv : κ × List E}
    (h : ∀ e ∈ kv.2, interval e = .ok (g e)) (r : κ × List E) :
    pruneKey interval I kv = .ok r ↔
      (∃ e ∈ kv.2, I.toInterval.inter (g e).toInterval ≠ .empty) ∧
        r = (kv.1, kv.2.filter fun e => I.toInterval.inter (g e).toInterval ≠ .empty) := by
  have hex : (∃ e ∈ kv.2, I.toInterval.inter (g e).toInterval ≠ .empty) ↔
      (kv.2.filter fun e => I.toInterval.inter (g e).toInterval ≠ .empty) ≠ [] := by
    simp [List.filter_eq_nil_iff]
  rw [pruneKey, pruneRange_eq_ok h, hex]
  cases kv.2.filter fun e => I.toInterval.inter (g e).toInterval ≠ .empty with
  | nil => simp
  | cons e es => simp [eq_comm]

/-- A range all of whose elements overlap the interval is kept as it is. -/
theorem pruneKey_of_forall {E : Type*} {interval : E → Except PyError (ClosedInterval K)}
    {I : ClosedInterval K} {kv : κ × List E} (g : E → ClosedInterval K) (hne : kv.2 ≠ [])
    (h : ∀ e ∈ kv.2, interval e = .ok (g e) ∧ I.toInterval.inter (g e).toInterval ≠ .empty) :
    pruneKey interval I kv = .ok kv := by
  obtain ⟨e, he⟩ := List.exists_mem_of_ne_nil _ hne
  refine (pruneKey_eq_ok_iff (fun e he => (h e he).1) kv).2 ⟨⟨e, he, (h e he).2⟩, ?_⟩
  rw [List.filter_eq_self.2 fun e he => decide_eq_true (h e he).2]

/-! ### The joint lookup -/

/-- The values of all dictionaries at a cut, if all have one. -/
def jointLookup {C : Type*} [LinearOrder C] (c : C) :
    List (κ × IntervalDict C V) → Option (List (κ × V))
  | [] => some []
  | kd :: ds => (kd.2.lookup c).bind fun v => (jointLookup c ds).map fun m => (kd.1, v) :: m

theorem jointLookup_eq_some_iff {C : Type*} [LinearOrder C] {c : C}
    {ds : List (κ × IntervalDict C V)} {m : List (κ × V)} :
    jointLookup c ds = some m ↔
      List.Forall₂ (fun kd kv => kd.1 = kv.1 ∧ kd.2.lookup c = some kv.2) ds m := by
  induction ds generalizing m with
  | nil => simp [jointLookup, eq_comm]
  | cons kd ds ih =>
    simp only [jointLookup, Option.bind_eq_some_iff, Option.map_eq_some_iff]
    constructor
    · rintro ⟨v, hv, m, hm, rfl⟩
      exact .cons ⟨rfl, hv⟩ (ih.1 hm)
    · rintro (_ | ⟨⟨hk, hv⟩, hm⟩)
      exact ⟨_, hv, _, ih.2 hm, by rw [hk]⟩

theorem jointLookup_ne_none_iff {C : Type*} [LinearOrder C] {c : C}
    {ds : List (κ × IntervalDict C V)} :
    jointLookup c ds ≠ none ↔ ∀ kd ∈ ds, kd.2.lookup c ≠ none := by
  induction ds with
  | nil => simp [jointLookup]
  | cons kd ds ih =>
    rw [List.forall_mem_cons, ← ih, jointLookup]
    cases kd.2.lookup c <;> simp

section

variable [DecidableEq κ] [DecidableEq V]

theorem lookup_overlapStep {d : IntervalDict (Cut K) (OverlapValue κ V)}
    {kd : κ × IntervalDict (Cut K) V} {c : Cut K} {o : Option (List (κ × V))}
    (h : d.lookup c = o.map .named) :
    (overlapStep d kd).lookup c =
      (o.bind fun m => (kd.2.lookup c).map fun v => m ++ [(kd.1, v)]).map .named := by
  rw [overlapStep, IntervalDict.lookup_restrict]
  simp only [Interval.mem_inter, IntervalDict.mem_domain, IntervalDict.lookup_combine, h]
  cases o with
  | none => simp
  | some m =>
    cases kd.2.lookup c with
    | none => simp
    | some v => simp [IntervalDict.outer, OverlapValue.concat]

/-- **At every cut the join maps to the values of all dictionaries.** -/
theorem lookup_joinOverlaps (kd : κ × IntervalDict (Cut K) V)
    (rest : List (κ × IntervalDict (Cut K) V)) (c : Cut K) :
    (joinOverlaps kd rest).lookup c = (jointLookup c (kd :: rest)).map .named := by
  have hfold : ∀ (d : IntervalDict (Cut K) (OverlapValue κ V)) (o : Option (List (κ × V))),
      d.lookup c = o.map .named → (rest.foldl overlapStep d).lookup c =
        (o.bind fun m => (jointLookup c rest).map fun m' => m ++ m').map .named := by
    induction rest with
    | nil =>
      intro d o h
      simp [h, jointLookup]
    | cons kd rest ih =>
      intro d o h
      rw [List.foldl_cons, ih _ _ (lookup_overlapStep h), jointLookup]
      cases o <;> cases kd.2.lookup c <;> simp [Function.comp_def]
  have hfirst : (IntervalDict.ofItems (kd.2.items.map fun p =>
      (p.1, OverlapValue.named [(kd.1, p.2)]))).lookup c =
        ((kd.2.lookup c).map fun v => [(kd.1, v)]).map .named := by
    refine IntervalDict.lookup_ofItems_eq ?_ ?_
    · intro q hq hc
      obtain ⟨p, hp, rfl⟩ := List.mem_map.1 hq
      rw [IntervalDict.lookup_eq_some_iff.2 ⟨p.1, hp, hc⟩]
      rfl
    · intro hne
      cases hl : kd.2.lookup c with
      | none => simp [hl] at hne
      | some v =>
        obtain ⟨I, hI, hc⟩ := IntervalDict.lookup_eq_some_iff.1 hl
        exact ⟨_, List.mem_map_of_mem hI, hc⟩
  rw [joinOverlaps, hfold _ _ hfirst, jointLookup]
  cases kd.2.lookup c <;> simp

end

/-! ### Closed keys -/

/-- All keys of a dictionary are closed intervals. -/
def ClosedKeys (d : IntervalDict (Cut K) V) : Prop :=
  ∀ p ∈ d.items, ∃ I : ClosedInterval K, p.1 = I.toInterval

/-- The cuts where closed-keyed dictionaries jointly have given values form a closed interval. -/
theorem exists_closedInterval_jointLookup {ds : List (κ × IntervalDict (Cut K) V)}
    (hne : ds ≠ []) (hcl : ∀ kd ∈ ds, ClosedKeys kd.2) {m : List (κ × V)} {c₀ : Cut K}
    (h₀ : jointLookup c₀ ds = some m) :
    ∃ J : ClosedInterval K, ∀ c, c ∈ J.toInterval ↔ jointLookup c ds = some m := by
  induction ds generalizing m with
  | nil => exact absurd rfl hne
  | cons kd ds ih =>
    rw [jointLookup_eq_some_iff] at h₀
    cases h₀ with
    | @cons _ kv _ m hkv hm =>
    obtain ⟨k, v⟩ := kv
    obtain ⟨hk, hv⟩ := hkv
    obtain ⟨p, hp, -⟩ := IntervalDict.lookup_eq_some_iff.1 hv
    obtain ⟨I, hI⟩ := hcl kd List.mem_cons_self _ hp
    have hmem : ∀ c, c ∈ I.toInterval ↔ kd.2.lookup c = some v := fun c => by
      rw [← (IntervalDict.mem_items_iff.1 hp).2 c]
      exact Iff.of_eq (congrArg (c ∈ ·) hI.symm)
    have hcons : ∀ c, jointLookup c (kd :: ds) = some ((k, v) :: m) ↔
        kd.2.lookup c = some v ∧ jointLookup c ds = some m := fun c => by
      simp only [jointLookup_eq_some_iff, List.forall₂_cons, hk, true_and]
    by_cases hds : ds = []
    · subst hds
      cases hm
      refine ⟨I, fun c => ?_⟩
      rw [hcons, hmem]
      simp [jointLookup]
    · obtain ⟨J, hJ⟩ := ih hds (fun kd hkd => hcl kd (List.mem_cons_of_mem _ hkd))
        (jointLookup_eq_some_iff.2 hm)
      refine ⟨I.inter J, fun c => ?_⟩
      rw [hcons, ← hmem, ← hJ, ← ClosedInterval.toInterval_inter, Interval.mem_inter]

section

variable [DecidableEq κ] [DecidableEq V]

/-- Every item of the join of dictionaries with closed keys is a closed interval with a dict. -/
theorem exists_closedItem {kd : κ × IntervalDict (Cut K) V}
    {rest : List (κ × IntervalDict (Cut K) V)} (hcl : ∀ kd' ∈ kd :: rest, ClosedKeys kd'.2)
    {p : Portion.Interval (Cut K) × OverlapValue κ V} (hp : p ∈ (joinOverlaps kd rest).items) :
    ∃ (J : ClosedInterval K) (m : List (κ × V)),
      p = (J.toInterval, .named m) ∧ J.lower ≤ J.upper ∧ overlapItem p = some (J, m) := by
  obtain ⟨I, v⟩ := p
  have hlookup := lookup_joinOverlaps kd rest
  obtain ⟨hI, hmem⟩ := IntervalDict.mem_items_iff.1 hp
  obtain ⟨c, hc⟩ := Interval.exists_mem hI
  obtain ⟨m, hm, rfl⟩ := Option.map_eq_some_iff.1 ((hlookup c).symm.trans ((hmem c).1 hc))
  obtain ⟨J, hJ⟩ := exists_closedInterval_jointLookup (List.cons_ne_nil kd rest) hcl hm
  obtain rfl : I = J.toInterval := Interval.ext_mem fun c => by
    rw [hmem, hlookup, hJ, Option.map_eq_some_iff]
    simp
  have hle := ClosedInterval.toInterval_ne_empty_iff.1 hI
  refine ⟨J, m, rfl, hle, ?_⟩
  simp [overlapItem, Interval.hull_toInterval hle]

omit [DecidableEq κ] [DecidableEq V] in
/-- Disjoint closed intervals, in the order of a dictionary. -/
theorem upper_lt_lower_of_apart {I J : ClosedInterval K} {v v' : OverlapValue κ V}
    (hI : I.lower ≤ I.upper) (hJ : J.lower ≤ J.upper)
    (hle : KeyLE (I.toInterval, v) (J.toInterval, v'))
    (hapart : Apart (I.toInterval, v) (J.toInterval, v')) : I.upper < J.lower := by
  by_contra! hlt
  have hIJ : I.lower ≤ J.lower := by
    obtain ⟨l, hl, hstart⟩ := Interval.start_mem (ClosedInterval.toInterval_ne_empty_iff.2 hI)
    have h1 := hle.trans (Interval.start_le (ClosedInterval.before_mem_toInterval.2
      (⟨le_rfl, hJ⟩ : J.lower ∈ J)))
    change Interval.start _ = _ at hstart
    rw [hstart, WithTop.coe_le_coe] at h1
    exact before_le_before.1 ((Interval.mem_ofCuts.1 hl).1.trans h1)
  exact hapart.1 (before J.lower) (ClosedInterval.before_mem_toInterval.2 ⟨hIJ, hlt⟩)
    (ClosedInterval.before_mem_toInterval.2 ⟨le_rfl, hJ⟩)

/-- **The overlaps of dictionaries with closed keys**: the maximal closed intervals on which all
of them have a value and none of the values changes, sorted and disjoint. -/
theorem getOverlaps_spec {ds : List (κ × IntervalDict (Cut K) V)} (hne : ds ≠ [])
    (hcl : ∀ kd ∈ ds, ClosedKeys kd.2) :
    ∃ res, getOverlaps ds = .ok res ∧
      (∀ J m, (J, m) ∈ res ↔
        J.lower ≤ J.upper ∧ ∀ c, c ∈ J.toInterval ↔ jointLookup c ds = some m) ∧
      res.Pairwise fun p q => p.1.upper < q.1.lower := by
  obtain ⟨kd, rest, rfl⟩ := List.exists_cons_of_ne_nil hne
  set d := joinOverlaps kd rest with hd
  have hlookup := lookup_joinOverlaps kd rest
  have hitem : ∀ p ∈ d.items, ∃ (J : ClosedInterval K) (m : List (κ × V)),
      p = (J.toInterval, .named m) ∧ J.lower ≤ J.upper ∧ overlapItem p = some (J, m) :=
    fun p hp => exists_closedItem hcl hp
  set res := d.items.filterMap overlapItem with hres
  have hmem : ∀ J m, (J, m) ∈ res ↔ (J.toInterval, OverlapValue.named m) ∈ d.items := by
    intro J m
    rw [hres, List.mem_filterMap]
    constructor
    · rintro ⟨p, hp, hpJ⟩
      obtain ⟨J', m', rfl, -, hp'⟩ := hitem p hp
      obtain ⟨rfl, rfl⟩ := Prod.mk.inj (Option.some.inj (hp'.symm.trans hpJ))
      exact hp
    · intro hp
      have hle := ClosedInterval.toInterval_ne_empty_iff.1 (d.nonempty _ hp)
      exact ⟨_, hp, by simp [overlapItem, Interval.hull_toInterval hle]⟩
  have hsorted : res.Pairwise fun p q => p.1.upper < q.1.lower := by
    have hpair : d.items.Pairwise fun p q =>
        (KeyLE p q ∧ Apart p q) ∧ p ∈ d.items ∧ q ∈ d.items :=
      (d.sorted.and d.apart).imp_of_mem fun hp hq h => ⟨h, hp, hq⟩
    refine List.Pairwise.filterMap overlapItem ?_ hpair
    rintro p q ⟨⟨hle, hap⟩, hp, hq⟩ p' hp' q' hq'
    obtain ⟨I, m, rfl, hI, hpI⟩ := hitem p hp
    obtain ⟨J, m', rfl, hJ, hqJ⟩ := hitem q hq
    obtain rfl := Option.some.inj (hpI.symm.trans hp')
    obtain rfl := Option.some.inj (hqJ.symm.trans hq')
    exact upper_lt_lower_of_apart hI hJ hle hap
  have hle : ∀ p ∈ res, p.1.lower ≤ p.1.upper := by
    rintro ⟨J, m⟩ hp
    exact ClosedInterval.toInterval_ne_empty_iff.1 (d.nonempty _ ((hmem J m).1 hp))
  have hnd : (res.map Prod.fst).Nodup := by
    refine List.pairwise_map.2 (hsorted.imp_of_mem fun {p q} hp _ hlt heq => ?_)
    exact (hle p hp).not_gt (heq ▸ hlt)
  refine ⟨res, by rw [getOverlaps, ← hd, ← hres, dictOf_of_nodup hnd], fun J m => ?_, hsorted⟩
  rw [hmem, IntervalDict.mem_items_iff, ClosedInterval.toInterval_ne_empty_iff]
  simp [hd, hlookup]

/-- A single dictionary is kept, with closed keys. -/
theorem getOverlaps_single (k : κ) (d : IntervalDict (Cut K) V) :
    getOverlaps [(k, d)] =
      .ok (dictOf (d.items.filterMap fun p => p.1.hull.map fun I => (I, [(k, p.2)]))) := by
  have hitems : (joinOverlaps (k, d) []).items =
      d.items.map fun p => (p.1, OverlapValue.named [(k, p.2)]) := by
    refine IntervalDict.items_ofItems ?_ ?_ ?_
    · intro q hq
      obtain ⟨p, hp, rfl⟩ := List.mem_map.1 hq
      exact d.nonempty p hp
    · refine List.pairwise_map.2 (d.apart.imp fun h => ⟨h.1, fun heq => h.2 ?_⟩)
      simpa using heq
    · exact List.pairwise_map.2 d.sorted
  rw [getOverlaps, hitems, List.filterMap_map]
  rfl

/-- A single dictionary whose keys are sorted disjoint closed intervals. -/
theorem getOverlaps_single_of_items (k : κ) {d : IntervalDict (Cut K) V}
    {l : List (ClosedInterval K × V)} (hd : d.items = l.map fun p => (p.1.toInterval, p.2))
    (hle : ∀ p ∈ l, p.1.lower ≤ p.1.upper) (hl : l.Pairwise fun p q => p.1.upper < q.1.lower) :
    getOverlaps [(k, d)] = .ok (l.map fun p => (p.1, [(k, p.2)])) := by
  have hhull : (d.items.filterMap fun p => p.1.hull.map fun I => (I, [(k, p.2)])) =
      l.map fun p => (p.1, [(k, p.2)]) := by
    rw [hd, List.filterMap_map, ← List.filterMap_eq_map]
    refine List.filterMap_congr fun p hp => ?_
    simp [Interval.hull_toInterval (hle p hp)]
  have hnd : ((l.map fun p => (p.1, [(k, p.2)])).map Prod.fst).Nodup := by
    rw [List.map_map]
    refine List.pairwise_map.2 (hl.imp_of_mem fun {p q} hp _ hlt heq => ?_)
    have heq : p.1 = q.1 := heq
    exact (hle p hp).not_gt (heq ▸ hlt)
  rw [getOverlaps_single, hhull, dictOf_of_nodup hnd]

/-- A single dictionary that sorted closed intervals were assigned to, of which neighbours may share
an end. -/
theorem getOverlaps_single_touching (k : κ) {l : List (ClosedInterval K × V)}
    (hle : ∀ p ∈ l, p.1.lower ≤ p.1.upper)
    (hl : l.Pairwise fun p q => p.1.upper ≤ q.1.lower ∧ p.2 ≠ q.2) :
    getOverlaps [(k, .ofItems (l.map fun p => (p.1.toInterval, p.2)))] =
      .ok ((IntervalDict.survivors l).map fun p => (p.1, [(k, p.2)])) := by
  have hpair := IntervalDict.pairwise_survivors hle (hl.imp And.left)
  have hnd : (((IntervalDict.survivors l).map fun p => (p.1, [(k, p.2)])).map Prod.fst).Nodup := by
    rw [List.map_map]
    refine List.pairwise_map.2 (hpair.imp fun {p q} hlt heq => ?_)
    have heq : p.1 = q.1 := heq
    exact hlt.ne (congrArg ClosedInterval.lower heq)
  rw [getOverlaps_single, IntervalDict.items_ofItems_touching hle hl,
    IntervalDict.filterMap_hull_residuals (fun I v => (I, [(k, v)])) hle (hl.imp And.left),
    dictOf_of_nodup hnd]

end

end Svoe
