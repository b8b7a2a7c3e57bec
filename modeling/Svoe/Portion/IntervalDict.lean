import Mathlib.Data.List.Sort
import Svoe.Portion.Interval

/-!
# Interval dictionaries

`IntervalDict` maps intervals to values.  Assigning to an interval takes it away from the other
keys, and joins it with the key that already has an equal value; `combine` is the outer join of two
dictionaries over atomic pieces, `restrict` cuts a dictionary to an interval.

All operations are determined by `lookup`: what they do at a single cut.  The keys of a dictionary
are sorted, non-empty and disjoint and its values are distinct, so its items are determined by
`lookup` as well (`mem_items_iff`).
-/

namespace Svoe.Portion

variable {C : Type*} [LinearOrder C]

/-- Two intervals without a common member. -/
def Interval.Disjoint (I J : Interval C) : Prop := ∀ c, c ∈ I → c ∉ J

theorem Interval.Disjoint.symm {I J : Interval C} (h : I.Disjoint J) : J.Disjoint I :=
  fun c hJ hI => h c hI hJ

section Relations

variable {V : Type*}

/-- The order of the keys: by lower end. -/
def KeyLE (p q : Interval C × V) : Prop := p.1.start ≤ q.1.start

instance (p q : Interval C × V) : Decidable (KeyLE p q) :=
  inferInstanceAs (Decidable (p.1.start ≤ q.1.start))

instance : Std.Total (KeyLE (C := C) (V := V)) := ⟨fun p q => le_total p.1.start q.1.start⟩

instance : IsTrans (Interval C × V) KeyLE := ⟨fun _ _ _ h h' => le_trans h h'⟩

/-- Two items with disjoint keys and different values. -/
def Apart (p q : Interval C × V) : Prop := p.1.Disjoint q.1 ∧ p.2 ≠ q.2

instance : Std.Symm (Apart (C := C) (V := V)) := ⟨fun _ _ h => ⟨h.1.symm, h.2.symm⟩⟩

/-- The strict order of the keys. -/
def KeyLT (p q : Interval C × V) : Prop := p.1.start < q.1.start

instance : Std.Irrefl (KeyLT (C := C) (V := V)) := ⟨fun p => lt_irrefl p.1.start⟩

instance : Std.Antisymm (KeyLT (C := C) (V := V)) :=
  ⟨fun _ _ h h' => absurd h (lt_asymm h')⟩

/-- Disjoint keys start at different cuts. -/
theorem keyLT_of_sorted {l : List (Interval C × V)} (hne : ∀ p ∈ l, p.1 ≠ .empty)
    (hap : l.Pairwise Apart) (hs : l.Pairwise KeyLE) : l.Pairwise KeyLT := by
  refine (hap.and hs).imp_of_mem fun {p q} hp hq h => lt_of_le_of_ne h.2 fun heq => ?_
  obtain ⟨c, hc, hcs⟩ := Interval.start_mem (hne p hp)
  obtain ⟨c', hc', hcs'⟩ := Interval.start_mem (hne q hq)
  obtain rfl : c = c' := WithTop.coe_injective (hcs.symm.trans (heq.trans hcs'))
  exact h.1.1 c hc hc'

end Relations

/-- A mapping from intervals to values, as its sorted items. -/
structure IntervalDict (C V : Type*) [LinearOrder C] where
  items : List (Interval C × V)
  nonempty : ∀ p ∈ items, p.1 ≠ .empty
  apart : items.Pairwise Apart
  sorted : items.Pairwise KeyLE

namespace IntervalDict

variable {V : Type*}

/-- The dictionary without items. -/
def empty : IntervalDict C V where
  items := []
  nonempty := by simp
  apart := .nil
  sorted := .nil

theorem pairwise_keyLT (d : IntervalDict C V) : d.items.Pairwise KeyLT :=
  keyLT_of_sorted d.nonempty d.apart d.sorted

/-- `d.values()`. -/
def values (d : IntervalDict C V) : List V := d.items.map Prod.snd

/-! ### What a dictionary maps a cut to -/

/-- `d.get(c)`. -/
def lookup (d : IntervalDict C V) (c : C) : Option V :=
  (d.items.find? fun p => decide (c ∈ p.1)).map Prod.snd

@[simp] theorem lookup_empty (c : C) : (empty : IntervalDict C V).lookup c = none := rfl

/-- Items with a common member are the same. -/
theorem eq_of_mem {d : IntervalDict C V} {p q : Interval C × V} {c : C} (hp : p ∈ d.items)
    (hq : q ∈ d.items) (hcp : c ∈ p.1) (hcq : c ∈ q.1) : p = q := by
  by_contra hne
  exact (d.apart.forall hp hq hne).1 c hcp hcq

/-- Items with the same value are the same. -/
theorem eq_of_value {d : IntervalDict C V} {I J : Interval C} {v : V} (hI : (I, v) ∈ d.items)
    (hJ : (J, v) ∈ d.items) : I = J := by
  by_contra hne
  exact (d.apart.forall hI hJ fun h => hne (congrArg Prod.fst h)).2 rfl

theorem lookup_eq_some_iff {d : IntervalDict C V} {c : C} {v : V} :
    d.lookup c = some v ↔ ∃ I, (I, v) ∈ d.items ∧ c ∈ I := by
  unfold lookup
  rw [Option.map_eq_some_iff]
  constructor
  · rintro ⟨p, hp, rfl⟩
    exact ⟨p.1, List.mem_of_find?_eq_some hp, by simpa using List.find?_some hp⟩
  · rintro ⟨I, hI, hc⟩
    cases hf : d.items.find? fun p => decide (c ∈ p.1) with
    | none =>
      rw [List.find?_eq_none] at hf
      exact absurd (decide_eq_true hc) (hf _ hI)
    | some p =>
      have hp : c ∈ p.1 := by simpa using List.find?_some hf
      exact ⟨p, rfl, congrArg Prod.snd (eq_of_mem (List.mem_of_find?_eq_some hf) hI hp hc)⟩

/-- **The items are determined by `lookup`.** -/
theorem mem_items_iff {d : IntervalDict C V} {I : Interval C} {v : V} :
    (I, v) ∈ d.items ↔ I ≠ .empty ∧ ∀ c, c ∈ I ↔ d.lookup c = some v := by
  constructor
  · intro h
    refine ⟨d.nonempty _ h, fun c => ?_⟩
    rw [lookup_eq_some_iff]
    constructor
    · exact fun hc => ⟨I, h, hc⟩
    · rintro ⟨J, hJ, hc⟩
      rwa [eq_of_value h hJ]
  · rintro ⟨hne, h⟩
    obtain ⟨c, hc⟩ := Interval.exists_mem hne
    obtain ⟨J, hJ, -⟩ := lookup_eq_some_iff.1 ((h c).1 hc)
    have hJI : J = I := Interval.ext_mem fun c' => by
      rw [h c', lookup_eq_some_iff]
      constructor
      · exact fun hc' => ⟨J, hJ, hc'⟩
      · rintro ⟨J', hJ', hc'⟩
        rwa [eq_of_value hJ hJ']
    rwa [← hJI]

/-- `d.domain()`. -/
def domain (d : IntervalDict C V) : Interval C :=
  d.items.foldl (fun I p => I.union p.1) .empty

theorem mem_domain {d : IntervalDict C V} {c : C} : c ∈ d.domain ↔ d.lookup c ≠ none := by
  have hfold : ∀ (l : List (Interval C × V)) (I : Interval C),
      c ∈ l.foldl (fun I p => I.union p.1) I ↔ c ∈ I ∨ ∃ p ∈ l, c ∈ p.1 := by
    intro l
    induction l with
    | nil => simp
    | cons p l ih =>
      intro I
      rw [List.foldl_cons, ih, Interval.mem_union, List.exists_mem_cons_iff, or_assoc]
  rw [domain, hfold, Option.ne_none_iff_exists']
  simp only [lookup_eq_some_iff, Interval.not_mem_empty, false_or]
  constructor
  · rintro ⟨p, hp, hc⟩
    exact ⟨p.2, p.1, hp, hc⟩
  · rintro ⟨v, I, hI, hc⟩
    exact ⟨(I, v), hI, hc⟩

/-- `I in d`, for an interval `I`. -/
def covers (d : IntervalDict C V) (I : Interval C) : Prop := I.diff d.domain = .empty

instance (d : IntervalDict C V) (I : Interval C) : Decidable (d.covers I) :=
  inferInstanceAs (Decidable (I.diff d.domain = .empty))

theorem covers_iff {d : IntervalDict C V} {I : Interval C} :
    d.covers I ↔ ∀ c ∈ I, d.lookup c ≠ none := by
  simp only [covers, Interval.diff_eq_empty_iff, mem_domain]

/-! ### Assignment -/

section Operations

variable [DecidableEq V]

/-- The key that an assignment of `v` to `I` leaves `v` with. -/
def joinedKey (d : IntervalDict C V) (I : Interval C) (v : V) : Interval C :=
  match d.items.find? fun p => decide (p.2 = v) with
  | none => I
  | some p => p.1.union I

/-- The items with another value, cut by `I`. -/
def cutItems (d : IntervalDict C V) (I : Interval C) (v : V) : List (Interval C × V) :=
  d.items.filterMap fun p =>
    if p.2 = v ∨ p.1.diff I = .empty then none else some (p.1.diff I, p.2)

theorem mem_joinedKey {d : IntervalDict C V} {I : Interval C} {v : V} {c : C} :
    c ∈ d.joinedKey I v ↔ c ∈ I ∨ d.lookup c = some v := by
  unfold joinedKey
  split
  · next h =>
    rw [List.find?_eq_none] at h
    refine (or_iff_left fun hl => ?_).symm
    obtain ⟨J, hJ, -⟩ := lookup_eq_some_iff.1 hl
    exact h _ hJ (by simp)
  · next p h =>
    have hp : p.2 = v := by simpa using List.find?_some h
    have hmem : (p.1, v) ∈ d.items := hp ▸ List.mem_of_find?_eq_some h
    rw [Interval.mem_union, (mem_items_iff.1 hmem).2 c, or_comm]

theorem mem_cutItems {d : IntervalDict C V} {I J : Interval C} {v w : V} :
    (J, w) ∈ d.cutItems I v ↔
      w ≠ v ∧ J ≠ .empty ∧ ∃ i, (i, w) ∈ d.items ∧ J = i.diff I := by
  simp only [cutItems, List.mem_filterMap]
  constructor
  · rintro ⟨p, hp, h⟩
    split_ifs at h with hc
    rw [not_or] at hc
    obtain ⟨rfl, rfl⟩ := Prod.ext_iff.1 (Option.some.inj h)
    exact ⟨hc.1, hc.2, p.1, hp, rfl⟩
  · rintro ⟨hw, hJ, i, hi, rfl⟩
    exact ⟨(i, w), hi, if_neg (not_or.2 ⟨hw, hJ⟩)⟩

theorem apart_cutItems (d : IntervalDict C V) (I : Interval C) (v : V) :
    ((d.joinedKey I v, v) :: d.cutItems I v).Pairwise Apart := by
  refine List.pairwise_cons.2 ⟨?_, ?_⟩
  · rintro ⟨J, w⟩ h
    obtain ⟨hw, -, i, hi, rfl⟩ := mem_cutItems.1 h
    refine ⟨fun c hc hci => ?_, fun h => hw h.symm⟩
    rw [Interval.mem_diff] at hci
    have hl : d.lookup c = some w := lookup_eq_some_iff.2 ⟨i, hi, hci.1⟩
    have hv := (mem_joinedKey.1 hc).resolve_left hci.2
    exact hw (Option.some.inj (hl.symm.trans hv))
  · refine List.Pairwise.filterMap _ (fun p q hpq p' hp' q' hq' => ?_) d.apart
    split_ifs at hp' hq'
    obtain rfl := Option.some.inj hp'
    obtain rfl := Option.some.inj hq'
    exact ⟨fun c hc hc' => hpq.1 c (Interval.mem_diff.1 hc).1 (Interval.mem_diff.1 hc').1, hpq.2⟩

/-- `d[I] = v`. -/
def set (d : IntervalDict C V) (I : Interval C) (v : V) : IntervalDict C V :=
  if h : I = .empty then d
  else {
    items := ((d.joinedKey I v, v) :: d.cutItems I v).insertionSort KeyLE
    nonempty := by
      rintro ⟨J, w⟩ hp
      rcases List.mem_cons.1 ((List.perm_insertionSort _ _).mem_iff.1 hp) with heq | hp
      · obtain ⟨hJ, -⟩ := Prod.mk.inj heq
        obtain ⟨c, hc⟩ := Interval.exists_mem h
        exact fun he => Interval.not_mem_empty c (he ▸ hJ ▸ mem_joinedKey.2 (.inl hc))
      · exact (mem_cutItems.1 hp).2.1
    apart := ((List.perm_insertionSort _ _).pairwise_iff fun h => ⟨h.1.symm, h.2.symm⟩).2
      (apart_cutItems d I v)
    sorted := List.pairwise_insertionSort _ _ }

/-- **An assignment changes what the cuts of its key are mapped to, and nothing else.** -/
@[simp] theorem lookup_set (d : IntervalDict C V) (I : Interval C) (v : V) (c : C) :
    (d.set I v).lookup c = if c ∈ I then some v else d.lookup c := by
  by_cases h : I = .empty
  · simp [set, h]
  · refine Option.ext fun w => ?_
    have hmem : ∀ J, (J, w) ∈ (d.set I v).items ↔
        (J = d.joinedKey I v ∧ w = v) ∨ (J, w) ∈ d.cutItems I v := fun J => by
      rw [set, dif_neg h, (List.perm_insertionSort _ _).mem_iff, List.mem_cons, Prod.mk.injEq]
    rw [lookup_eq_some_iff]
    simp only [hmem, mem_cutItems]
    constructor
    · rintro ⟨J, ⟨rfl, rfl⟩ | ⟨hw, -, i, hi, rfl⟩, hc⟩
      · split_ifs with hI
        · rfl
        · exact (mem_joinedKey.1 hc).resolve_left hI
      · rw [Interval.mem_diff] at hc
        rw [if_neg hc.2]
        exact lookup_eq_some_iff.2 ⟨i, hi, hc.1⟩
    · intro hl
      by_cases hw : w = v
      · refine ⟨_, .inl ⟨rfl, hw⟩, mem_joinedKey.2 ?_⟩
        split_ifs at hl with hI
        · exact .inl hI
        · exact .inr (hw ▸ hl)
      · split_ifs at hl with hI
        · exact absurd (Option.some.inj hl).symm hw
        · obtain ⟨i, hi, hc⟩ := lookup_eq_some_iff.1 hl
          have hcd : c ∈ i.diff I := Interval.mem_diff.2 ⟨hc, hI⟩
          exact ⟨_, .inr ⟨hw, fun he => Interval.not_mem_empty c (he ▸ hcd), i, hi, rfl⟩, hcd⟩

/-- The values after an assignment. -/
theorem mem_values_set {d : IntervalDict C V} {I : Interval C} {v w : V}
    (h : w ∈ (d.set I v).values) : w = v ∨ w ∈ d.values := by
  obtain ⟨⟨J, w⟩, hp, rfl⟩ := List.mem_map.1 h
  obtain ⟨hne, hmem⟩ := mem_items_iff.1 hp
  obtain ⟨c, hc⟩ := Interval.exists_mem hne
  have hl := (hmem c).1 hc
  rw [lookup_set] at hl
  split_ifs at hl
  · exact .inl (Option.some.inj hl).symm
  · obtain ⟨i, hi, -⟩ := lookup_eq_some_iff.1 hl
    exact .inr (List.mem_map.2 ⟨(i, w), hi, rfl⟩)

/-- An assignment of a new value to a key apart from the others adds an item. -/
theorem mem_items_set_of_disjoint {d : IntervalDict C V} {I : Interval C} {v : V}
    (hI : I ≠ .empty) (hdis : ∀ p ∈ d.items, p.1.Disjoint I) (hv : v ∉ d.values)
    {J : Interval C} {w : V} :
    (J, w) ∈ (d.set I v).items ↔ (J, w) ∈ d.items ∨ (J = I ∧ w = v) := by
  have hlookup : ∀ c, (d.set I v).lookup c = some w ↔
      (w = v ∧ c ∈ I) ∨ d.lookup c = some w := fun c => by
    rw [lookup_set]
    split_ifs with hc
    · have hnone : d.lookup c ≠ some w := fun hl => by
        obtain ⟨i, hi, hci⟩ := lookup_eq_some_iff.1 hl
        exact hdis _ hi c hci hc
      simp [hc, hnone, eq_comm]
    · simp [hc]
  have hnew : ∀ c, d.lookup c ≠ some v := fun c hl => by
    obtain ⟨i, hi, -⟩ := lookup_eq_some_iff.1 hl
    exact hv (List.mem_map.2 ⟨(i, v), hi, rfl⟩)
  rw [mem_items_iff]
  simp only [hlookup]
  by_cases hw : w = v
  · subst hw
    have hmem : (J, w) ∉ d.items := fun h => hv (List.mem_map.2 ⟨(J, w), h, rfl⟩)
    simp only [true_and, hnew, or_false, hmem, false_or, and_true]
    constructor
    · exact fun h => Interval.ext_mem h.2
    · rintro rfl
      exact ⟨hI, fun _ => Iff.rfl⟩
  · rw [mem_items_iff]
    simp [hw]

/-- `IntervalDict(items)`. -/
def ofItems (l : List (Interval C × V)) : IntervalDict C V :=
  l.foldl (fun d p => d.set p.1 p.2) empty

/-- The last item whose key has the cut decides. -/
theorem lookup_ofItems (l : List (Interval C × V)) (c : C) :
    (ofItems l).lookup c = (l.reverse.find? fun p => decide (c ∈ p.1)).map Prod.snd := by
  have hfold : ∀ d : IntervalDict C V, (l.foldl (fun d p => d.set p.1 p.2) d).lookup c =
      ((l.reverse.find? fun p => decide (c ∈ p.1)).map Prod.snd).or (d.lookup c) := by
    induction l with
    | nil => simp
    | cons p l ih =>
      intro d
      rw [List.foldl_cons, ih, lookup_set, List.reverse_cons, List.find?_append]
      cases l.reverse.find? fun p => decide (c ∈ p.1) with
      | some q => simp
      | none => by_cases hc : c ∈ p.1 <;> simp [hc]
  rw [ofItems, hfold empty, lookup_empty, Option.or_none]

theorem lookup_ofItems_cons (p : Interval C × V) (l : List (Interval C × V)) (c : C) :
    (ofItems (p :: l)).lookup c =
      ((ofItems l).lookup c).or (if c ∈ p.1 then some p.2 else none) := by
  rw [lookup_ofItems, lookup_ofItems, List.reverse_cons, List.find?_append]
  cases l.reverse.find? fun p => decide (c ∈ p.1) with
  | some q => simp
  | none => by_cases hc : c ∈ p.1 <;> simp [hc]

theorem lookup_ofItems_eq_none_iff {l : List (Interval C × V)} {c : C} :
    (ofItems l).lookup c = none ↔ ∀ p ∈ l, c ∉ p.1 := by
  rw [lookup_ofItems, Option.map_eq_none_iff, List.find?_eq_none]
  simp

/-- Items that agree at a cut. -/
theorem lookup_ofItems_eq {l : List (Interval C × V)} {c : C} {o : Option V}
    (hall : ∀ p ∈ l, c ∈ p.1 → o = some p.2) (hex : o ≠ none → ∃ p ∈ l, c ∈ p.1) :
    (ofItems l).lookup c = o := by
  rw [lookup_ofItems]
  cases hf : l.reverse.find? fun p => decide (c ∈ p.1) with
  | none =>
    rw [List.find?_eq_none] at hf
    by_contra hne
    obtain ⟨p, hp, hc⟩ := hex fun h => hne h.symm
    exact hf p (List.mem_reverse.2 hp) (decide_eq_true hc)
  | some p =>
    exact (hall p (List.mem_reverse.1 (List.mem_of_find?_eq_some hf))
      (by simpa using List.find?_some hf)).symm

omit [DecidableEq V] in
/-- **A list in normal form that maps every cut as the dictionary does is its items.** -/
theorem items_eq_of_lookup {d : IntervalDict C V} {l : List (Interval C × V)}
    (hne : ∀ p ∈ l, p.1 ≠ .empty) (hap : l.Pairwise Apart) (hs : l.Pairwise KeyLE)
    (h : ∀ c v, d.lookup c = some v ↔ ∃ I, (I, v) ∈ l ∧ c ∈ I) : d.items = l := by
  have hitem : ∀ p ∈ l, p ∈ d.items := by
    rintro ⟨I, v⟩ hp
    refine mem_items_iff.2 ⟨hne _ hp, fun c => ⟨fun hc => (h c v).2 ⟨I, hp, hc⟩, fun hl => ?_⟩⟩
    obtain ⟨J, hJ, hc⟩ := (h c v).1 hl
    -- only one key has the value
    have hJI : J = I := by
      by_contra hne
      exact (hap.forall hJ hp fun heq => hne (congrArg Prod.fst heq)).2 rfl
    exact hJI ▸ hc
  refine d.pairwise_keyLT.eq_of_mem_iff (keyLT_of_sorted hne hap hs) fun p => ⟨?_, hitem p⟩
  intro hp
  obtain ⟨c, hc⟩ := Interval.exists_mem (d.nonempty p hp)
  obtain ⟨I, hI, hcI⟩ := (h c p.2).1 (((mem_items_iff.1 hp).2 c).1 hc)
  rwa [eq_of_mem hp (hitem _ hI) hc hcI]

/-- Items in normal form are kept as they are. -/
theorem items_ofItems {l : List (Interval C × V)} (hne : ∀ p ∈ l, p.1 ≠ .empty)
    (hap : l.Pairwise Apart) (hs : l.Pairwise KeyLE) : (ofItems l).items = l := by
  refine items_eq_of_lookup hne hap hs fun c v => ⟨fun hl => ?_, ?_⟩
  · rw [lookup_ofItems, Option.map_eq_some_iff] at hl
    obtain ⟨⟨I, w⟩, hq, rfl⟩ := hl
    exact ⟨I, List.mem_reverse.1 (List.mem_of_find?_eq_some hq), by simpa using List.find?_some hq⟩
  · rintro ⟨I, hI, hc⟩
    refine lookup_ofItems_eq (fun q hq hcq => ?_) fun _ => ⟨_, hI, hc⟩
    have heq : q = (I, v) := by
      by_contra hne
      exact (hap.forall hq hI hne).1 c hcq hc
    rw [heq]

/-! ### Restriction and outer join -/

/-- `d[J]` for an interval `J`. -/
def restrict (d : IntervalDict C V) (J : Interval C) : IntervalDict C V :=
  ofItems (d.items.map fun p => (J.inter p.1, p.2))

@[simp] theorem lookup_restrict (d : IntervalDict C V) (J : Interval C) (c : C) :
    (d.restrict J).lookup c = if c ∈ J then d.lookup c else none := by
  refine lookup_ofItems_eq ?_ ?_
  · intro q hq hc
    obtain ⟨p, hp, rfl⟩ := List.mem_map.1 hq
    rw [Interval.mem_inter] at hc
    rw [if_pos hc.1]
    exact lookup_eq_some_iff.2 ⟨p.1, hp, hc.2⟩
  · intro h
    split_ifs at h with hJ
    · obtain ⟨v, hv⟩ := Option.ne_none_iff_exists'.1 h
      obtain ⟨I, hI, hc⟩ := lookup_eq_some_iff.1 hv
      exact ⟨_, List.mem_map_of_mem hI, Interval.mem_inter.2 ⟨hJ, hc⟩⟩
    · exact absurd rfl h

end Operations

section Combine

variable {V₁ V₂ : Type*} [DecidableEq V₁] [DecidableEq V₂] [DecidableEq V]
  (left : V₁ → V) (right : V₂ → V) (how : V₁ → V₂ → V)

/-- `d₁.combine(d₂, how)`: the values of both where both have one, else the value of the one that
has (`left` and `right` embed it among the results). -/
def combine (d₁ : IntervalDict C V₁) (d₂ : IntervalDict C V₂) : IntervalDict C V :=
  let both := d₁.domain.inter d₂.domain
  ofItems <|
    (d₁.restrict (d₁.domain.diff d₂.domain)).items.map (fun p => (p.1, left p.2)) ++
    (d₂.restrict (d₂.domain.diff d₁.domain)).items.map (fun p => (p.1, right p.2)) ++
    (d₁.restrict both).items.flatMap fun p =>
      ((d₂.restrict both).items.filter fun q => p.1.inter q.1 ≠ .empty).map fun q =>
        (p.1.inter q.1, how p.2 q.2)

/-- The value of an outer join. -/
def outer : Option V₁ → Option V₂ → Option V
  | none, none => none
  | some a, none => some (left a)
  | none, some b => some (right b)
  | some a, some b => some (how a b)

@[simp] theorem lookup_combine (d₁ : IntervalDict C V₁) (d₂ : IntervalDict C V₂) (c : C) :
    (combine left right how d₁ d₂).lookup c =
      outer left right how (d₁.lookup c) (d₂.lookup c) := by
  refine lookup_ofItems_eq ?_ ?_
  · intro p hp hc
    simp only [List.mem_append, List.mem_map, List.mem_flatMap, List.mem_filter] at hp
    rcases hp with (⟨q, hq, rfl⟩ | ⟨q, hq, rfl⟩) | ⟨q, hq, q', ⟨hq', -⟩, rfl⟩
    · have hl : (d₁.restrict _).lookup c = some q.2 := lookup_eq_some_iff.2 ⟨q.1, hq, hc⟩
      rw [lookup_restrict] at hl
      split_ifs at hl with hd
      rw [Interval.mem_diff, mem_domain, mem_domain, not_not] at hd
      rw [hl, hd.2, outer]
    · have hl : (d₂.restrict _).lookup c = some q.2 := lookup_eq_some_iff.2 ⟨q.1, hq, hc⟩
      rw [lookup_restrict] at hl
      split_ifs at hl with hd
      rw [Interval.mem_diff, mem_domain, mem_domain, not_not] at hd
      rw [hl, hd.2, outer]
    · rw [Interval.mem_inter] at hc
      have hl : (d₁.restrict _).lookup c = some q.2 := lookup_eq_some_iff.2 ⟨q.1, hq, hc.1⟩
      have hl' : (d₂.restrict _).lookup c = some q'.2 := lookup_eq_some_iff.2 ⟨q'.1, hq', hc.2⟩
      rw [lookup_restrict] at hl hl'
      split_ifs at hl hl'
      rw [hl, hl', outer]
  · intro hne
    cases h₁ : d₁.lookup c with
    | none =>
      cases h₂ : d₂.lookup c with
      | none => simp [h₁, h₂, outer] at hne
      | some b =>
        have hl : (d₂.restrict (d₂.domain.diff d₁.domain)).lookup c = some b := by
          rw [lookup_restrict, if_pos (by simp [mem_domain, h₁, h₂]), h₂]
        obtain ⟨I, hI, hc⟩ := lookup_eq_some_iff.1 hl
        exact ⟨(I, right b), List.mem_append_left _ (List.mem_append_right _
          (List.mem_map.2 ⟨_, hI, rfl⟩)), hc⟩
    | some a =>
      cases h₂ : d₂.lookup c with
      | none =>
        have hl : (d₁.restrict (d₁.domain.diff d₂.domain)).lookup c = some a := by
          rw [lookup_restrict, if_pos (by simp [mem_domain, h₁, h₂]), h₁]
        obtain ⟨I, hI, hc⟩ := lookup_eq_some_iff.1 hl
        exact ⟨(I, left a), List.mem_append_left _ (List.mem_append_left _
          (List.mem_map.2 ⟨_, hI, rfl⟩)), hc⟩
      | some b =>
        have hboth : c ∈ d₁.domain.inter d₂.domain := by simp [mem_domain, h₁, h₂]
        have hl : (d₁.restrict (d₁.domain.inter d₂.domain)).lookup c = some a := by
          rw [lookup_restrict, if_pos hboth, h₁]
        have hl' : (d₂.restrict (d₁.domain.inter d₂.domain)).lookup c = some b := by
          rw [lookup_restrict, if_pos hboth, h₂]
        obtain ⟨I, hI, hc⟩ := lookup_eq_some_iff.1 hl
        obtain ⟨J, hJ, hc'⟩ := lookup_eq_some_iff.1 hl'
        have hmem : c ∈ I.inter J := Interval.mem_inter.2 ⟨hc, hc'⟩
        refine ⟨(I.inter J, how a b), List.mem_append_right _ (List.mem_flatMap.2 ⟨_, hI,
          List.mem_map.2 ⟨_, List.mem_filter.2 ⟨hJ, ?_⟩, rfl⟩⟩), hmem⟩
        exact decide_eq_true fun he => Interval.not_mem_empty c (he ▸ hmem)

end Combine

/-! ### Closed keys -/

section Closed

variable {K : Type*} [LinearOrder K] [DecidableEq V]

/-- Assigning to sorted disjoint closed intervals, with different values, keeps the items. -/
theorem items_ofItems_closed {l : List (ClosedInterval K × V)}
    (hle : ∀ p ∈ l, p.1.lower ≤ p.1.upper)
    (h : l.Pairwise fun p q => p.1.upper < q.1.lower ∧ p.2 ≠ q.2) :
    (ofItems (l.map fun p => (p.1.toInterval, p.2))).items =
      l.map fun p => (p.1.toInterval, p.2) := by
  refine items_ofItems ?_ ?_ ?_
  · intro q hq
    obtain ⟨p, hp, rfl⟩ := List.mem_map.1 hq
    exact ClosedInterval.toInterval_ne_empty_iff.2 (hle p hp)
  · refine List.pairwise_map.2 (h.imp fun {p q} hpq => ⟨?_, hpq.2⟩)
    exact fun c hc => ClosedInterval.disjoint_of_lt hpq.1 hc
  · refine List.pairwise_map.2 (h.imp_of_mem fun {p q} hp hq hpq => ?_)
    rw [KeyLE, ClosedInterval.start_toInterval (hle p hp),
      ClosedInterval.start_toInterval (hle q hq), WithTop.coe_le_coe, before_le_before]
    exact (hle p hp).trans hpq.1.le

/-! ### Closed keys that touch -/

/-- What is left of the keys when each is cut by the one behind it. -/
def residuals : List (ClosedInterval K × V) → List (Interval (Cut K) × V)
  | [] => []
  | [p] => [(p.1.toInterval, p.2)]
  | p :: q :: l =>
    (.ofCuts (before p.1.lower) (min (after p.1.upper) (before q.1.lower)), p.2) ::
      residuals (q :: l)

/-- The keys of which something is left: those that the next one does not cover. -/
def survivors : List (ClosedInterval K × V) → List (ClosedInterval K × V)
  | [] => []
  | [p] => [p]
  | p :: q :: l => if p.1.lower < q.1.lower then p :: survivors (q :: l) else survivors (q :: l)

variable {l : List (ClosedInterval K × V)}

omit [DecidableEq V] in
theorem survivors_sublist : (survivors l).Sublist l := by
  fun_induction survivors l with
  | case1 => exact .slnil
  | case2 p => exact .refl _
  | case3 p q l hlt ih => exact ih.cons_cons p
  | case4 p q l hlt ih => exact ih.cons p

omit [DecidableEq V] in
/-- The keys of the residuals start where the original ones do. -/
theorem exists_of_mem_residuals {p : Interval (Cut K) × V} (hp : p ∈ residuals l) :
    ∃ q ∈ l, ∃ hi, p = (.ofCuts (before q.1.lower) hi, q.2) := by
  fun_induction residuals l with
  | case1 => cases hp
  | case2 q => exact ⟨q, List.mem_cons_self, _, List.mem_singleton.1 hp⟩
  | case3 q r l ih =>
    rcases List.mem_cons.1 hp with rfl | hp
    · exact ⟨q, List.mem_cons_self, _, rfl⟩
    · obtain ⟨r', hr', hi, heq⟩ := ih hp
      exact ⟨r', List.mem_cons_of_mem _ hr', hi, heq⟩

omit [DecidableEq V] in
/-- Residuals are apart, and those that are not empty are in order. -/
theorem pairwise_residuals (hle : ∀ p ∈ l, p.1.lower ≤ p.1.upper)
    (h : l.Pairwise fun p q => p.1.upper ≤ q.1.lower ∧ p.2 ≠ q.2) :
    (residuals l).Pairwise fun p q =>
      Apart p q ∧ (p.1 ≠ .empty → q.1 ≠ .empty → KeyLE p q) := by
  fun_induction residuals l with
  | case1 => exact .nil
  | case2 p => exact List.pairwise_singleton _ _
  | case3 p q l ih =>
    obtain ⟨hp, htail⟩ := List.pairwise_cons.1 h
    refine List.pairwise_cons.2 ⟨fun r hr => ?_, ih (fun r hr =>
      hle r (List.mem_cons_of_mem p hr)) htail⟩
    obtain ⟨r', hr', hi, rfl⟩ := exists_of_mem_residuals hr
    have hlow : q.1.lower ≤ r'.1.lower := by
      rcases List.mem_cons.1 hr' with rfl | hr'
      · exact le_rfl
      · exact (hle q (List.mem_cons_of_mem p List.mem_cons_self)).trans
          ((List.pairwise_cons.1 htail).1 r' hr').1
    refine ⟨⟨fun c hc hcr => ?_, (hp r' hr').2⟩, fun hne hne' => ?_⟩
    · have h1 := (lt_min_iff.1 (Interval.mem_ofCuts.1 hc).2).2
      have h2 := (Interval.mem_ofCuts.1 hcr).1
      exact h1.not_ge ((before_le_before.2 hlow).trans h2)
    · rw [KeyLE, Interval.start_ofCuts (Interval.ofCuts_ne_empty_iff.1 hne),
        Interval.start_ofCuts (Interval.ofCuts_ne_empty_iff.1 hne'), WithTop.coe_le_coe,
        before_le_before]
      exact (hle p List.mem_cons_self).trans (hp r' hr').1

/-- What a cut is mapped to by keys that touch at most: the residual it is in. -/
theorem lookup_ofItems_touching (hle : ∀ p ∈ l, p.1.lower ≤ p.1.upper)
    (h : l.Pairwise fun p q => p.1.upper ≤ q.1.lower) {c : Cut K} {v : V} :
    (ofItems (l.map fun p => (p.1.toInterval, p.2))).lookup c = some v ↔
      ∃ I, (I, v) ∈ residuals l ∧ c ∈ I := by
  fun_induction residuals l with
  | case1 => simp [ofItems]
  | case2 p =>
    rw [List.map_singleton, lookup_ofItems_cons]
    by_cases hc : c ∈ p.1.toInterval <;> simp [hc, ofItems, eq_comm]
  | case3 p q l ih =>
    obtain ⟨hp, htail⟩ := List.pairwise_cons.1 h
    have ih := ih (fun r hr => hle r (List.mem_cons_of_mem p hr)) htail
    set d := ofItems ((q :: l).map fun p => (p.1.toInterval, p.2)) with hd
    -- within the key, the later ones begin with the next one
    have hnext : c ∈ p.1.toInterval → (d.lookup c = none ↔ c < before q.1.lower) := by
      intro hc
      rw [hd, lookup_ofItems_eq_none_iff, List.forall_mem_map]
      constructor
      · intro hnone
        by_contra! hge
        refine hnone q List.mem_cons_self (Interval.mem_ofCuts.2 ⟨hge, ?_⟩)
        calc c < after p.1.upper := (Interval.mem_ofCuts.1 hc).2
          _ ≤ after q.1.upper := after_le_after.2 ((hp q List.mem_cons_self).trans
            (hle q (List.mem_cons_of_mem p List.mem_cons_self)))
      · intro hlt r hr hcr
        refine hlt.not_ge (le_trans ?_ (Interval.mem_ofCuts.1 hcr).1)
        rw [before_le_before]
        rcases List.mem_cons.1 hr with rfl | hr'
        · exact le_rfl
        · exact (hle q (List.mem_cons_of_mem p List.mem_cons_self)).trans
            ((List.pairwise_cons.1 htail).1 r hr')
    rw [List.map_cons, lookup_ofItems_cons, ← hd]
    constructor
    · intro hl
      cases hlook : d.lookup c with
      | some w =>
        rw [hlook, Option.some_or] at hl
        obtain ⟨I, hI, hc⟩ := ih.1 (hlook.trans hl)
        exact ⟨I, List.mem_cons_of_mem _ hI, hc⟩
      | none =>
        rw [hlook, Option.none_or] at hl
        split_ifs at hl with hc
        obtain rfl := Option.some.inj hl
        obtain ⟨hlow, hup⟩ := Interval.mem_ofCuts.1 hc
        exact ⟨_, List.mem_cons_self,
          Interval.mem_ofCuts.2 ⟨hlow, lt_min hup ((hnext hc).1 hlook)⟩⟩
    · rintro ⟨I, hI, hc⟩
      rcases List.mem_cons.1 hI with heq | hI
      · obtain ⟨rfl, rfl⟩ := Prod.mk.inj heq
        obtain ⟨hlow, hup⟩ := Interval.mem_ofCuts.1 hc
        have hcp : c ∈ p.1.toInterval := Interval.mem_ofCuts.2 ⟨hlow, (lt_min_iff.1 hup).1⟩
        rw [(hnext hcp).2 (lt_min_iff.1 hup).2, Option.none_or, if_pos hcp]
      · rw [ih.2 ⟨I, hI, hc⟩, Option.some_or]

/-- **Assigning to closed intervals that touch at most** cuts each by the next one. -/
theorem items_ofItems_touching (hle : ∀ p ∈ l, p.1.lower ≤ p.1.upper)
    (h : l.Pairwise fun p q => p.1.upper ≤ q.1.lower ∧ p.2 ≠ q.2) :
    (ofItems (l.map fun p => (p.1.toInterval, p.2))).items =
      (residuals l).filter fun p => p.1 ≠ .empty := by
  refine items_eq_of_lookup (fun p hp => by simpa using (List.mem_filter.1 hp).2) ?_ ?_ ?_
  · refine (pairwise_residuals hle h).filter _ |>.imp fun hpq => hpq.1
  · refine ((pairwise_residuals hle h).filter _).imp_of_mem fun {p q} hp hq hpq => hpq.2 ?_ ?_
    · simpa using (List.mem_filter.1 hp).2
    · simpa using (List.mem_filter.1 hq).2
  · intro c v
    rw [lookup_ofItems_touching hle (h.imp And.left)]
    constructor
    · rintro ⟨I, hI, hc⟩
      refine ⟨I, List.mem_filter.2 ⟨hI, decide_eq_true fun he => ?_⟩, hc⟩
      exact Interval.not_mem_empty c ((show I = .empty from he) ▸ hc)
    · rintro ⟨I, hI, hc⟩
      exact ⟨I, List.mem_of_mem_filter hI, hc⟩

/-- What may be left of a closed key: all of it, or all but its end. -/
def CutKey (J : ClosedInterval K) (I : Interval (Cut K)) : Prop :=
  I = J.toInterval ∨ I = .ofCuts (before J.lower) (before J.upper)

theorem CutKey.hull_eq {J : ClosedInterval K} {I : Interval (Cut K)} (h : CutKey J I)
    (hlt : J.lower < J.upper) : I.hull = some J := by
  rcases h with rfl | rfl
  · exact Interval.hull_toInterval hlt.le
  · exact Interval.hull_ofCuts (before_lt_before.2 hlt)

theorem CutKey.ne_empty {J : ClosedInterval K} {I : Interval (Cut K)} (h : CutKey J I)
    (hlt : J.lower < J.upper) : I ≠ .empty := by
  rcases h with rfl | rfl
  · exact ClosedInterval.toInterval_ne_empty_iff.2 hlt.le
  · exact Interval.ofCuts_ne_empty_iff.2 (before_lt_before.2 hlt)

theorem cutKey_min {I J : ClosedInterval K} (h : I.upper ≤ J.lower) :
    CutKey I (.ofCuts (before I.lower) (min (after I.upper) (before J.lower))) := by
  rcases h.lt_or_eq with hlt | heq
  · left
    rw [min_eq_left (after_le_before.2 hlt)]
    rfl
  · right
    rw [min_eq_right (before_lt_after.2 heq.ge).le, heq]

omit [DecidableEq V] in
/-- The keys of the residuals, for keys that touch at most. -/
theorem cutKey_of_mem_residuals {p : Interval (Cut K) × V} (hp : p ∈ residuals l)
    (h : l.Pairwise fun p q => p.1.upper ≤ q.1.lower) : ∃ q ∈ l, p.2 = q.2 ∧ CutKey q.1 p.1 := by
  fun_induction residuals l with
  | case1 => cases hp
  | case2 q =>
    rw [List.mem_singleton.1 hp]
    exact ⟨q, List.mem_cons_self, rfl, .inl rfl⟩
  | case3 q r l ih =>
    obtain ⟨hq, htail⟩ := List.pairwise_cons.1 h
    rcases List.mem_cons.1 hp with rfl | hp
    · exact ⟨q, List.mem_cons_self, rfl, cutKey_min (hq r List.mem_cons_self)⟩
    · obtain ⟨r', hr', heq, hcut⟩ := ih hp htail
      exact ⟨r', List.mem_cons_of_mem q hr', heq, hcut⟩

omit [DecidableEq V] in
/-- Every key leaves a residual. -/
theorem exists_mem_residuals {q : ClosedInterval K × V} (hq : q ∈ l)
    (h : l.Pairwise fun p q => p.1.upper ≤ q.1.lower) :
    ∃ I, (I, q.2) ∈ residuals l ∧ CutKey q.1 I := by
  fun_induction residuals l with
  | case1 => cases hq
  | case2 p =>
    rw [List.mem_singleton.1 hq]
    exact ⟨_, List.mem_singleton_self _, .inl rfl⟩
  | case3 p r l ih =>
    obtain ⟨hp, htail⟩ := List.pairwise_cons.1 h
    rcases List.mem_cons.1 hq with rfl | hq
    · exact ⟨_, List.mem_cons_self, cutKey_min (hp r List.mem_cons_self)⟩
    · obtain ⟨I, hI, hcut⟩ := ih hq htail
      exact ⟨I, List.mem_cons_of_mem _ hI, hcut⟩

omit [DecidableEq V] in
/-- Only the last of the keys that start together leaves something, and its hull is the key. -/
theorem filterMap_hull_residuals {β : Type*} (f : ClosedInterval K → V → β)
    (hle : ∀ p ∈ l, p.1.lower ≤ p.1.upper)
    (h : l.Pairwise fun p q => p.1.upper ≤ q.1.lower) :
    ((residuals l).filter fun p => p.1 ≠ .empty).filterMap
        (fun p => p.1.hull.map fun I => f I p.2) = (survivors l).map fun p => f p.1 p.2 := by
  fun_induction residuals l with
  | case1 => rfl
  | case2 p =>
    have hp := hle p List.mem_cons_self
    rw [List.filter_cons, if_pos (decide_eq_true (ClosedInterval.toInterval_ne_empty_iff.2 hp)),
      List.filter_nil, List.filterMap_cons_some (by rw [Interval.hull_toInterval hp]; rfl)]
    rfl
  | case3 p q l ih =>
    obtain ⟨hp, htail⟩ := List.pairwise_cons.1 h
    have ih := ih (fun r hr => hle r (List.mem_cons_of_mem p hr)) htail
    have hpq := hp q List.mem_cons_self
    rw [survivors]
    split_ifs with hlt
    · have hcut : before p.1.lower < min (after p.1.upper) (before q.1.lower) :=
        lt_min (before_lt_after.2 (hle p List.mem_cons_self)) (before_lt_before.2 hlt)
      have hhull : (Interval.ofCuts (before p.1.lower)
          (min (after p.1.upper) (before q.1.lower))).hull = some p.1 := by
        rw [Interval.hull_ofCuts hcut]
        rcases hpq.lt_or_eq with hup | hup
        · rw [min_eq_left (after_le_before.2 hup)]
          rfl
        · rw [min_eq_right (before_lt_after.2 hup.ge).le, ← hup]
          rfl
      rw [List.filter_cons, if_pos (decide_eq_true (Interval.ofCuts_ne_empty_iff.2 hcut)),
        List.filterMap_cons_some (by rw [hhull]; rfl), ih, List.map_cons]
    · rw [List.filter_cons, if_neg, ih]
      simp only [decide_eq_true_eq, Interval.ofCuts_ne_empty_iff, lt_min_iff, before_lt_before]
      exact fun hcut => hlt hcut.2

omit [DecidableEq V] in
theorem pairwise_survivors (hle : ∀ p ∈ l, p.1.lower ≤ p.1.upper)
    (h : l.Pairwise fun p q => p.1.upper ≤ q.1.lower) :
    (survivors l).Pairwise fun p q => p.1.lower < q.1.lower := by
  fun_induction survivors l with
  | case1 => exact .nil
  | case2 p => exact List.pairwise_singleton _ _
  | case3 p q l hlt ih =>
    obtain ⟨-, htail⟩ := List.pairwise_cons.1 h
    refine List.pairwise_cons.2 ⟨fun r hr => ?_, ih (fun r hr =>
      hle r (List.mem_cons_of_mem p hr)) htail⟩
    rcases List.mem_cons.1 (survivors_sublist.subset hr) with rfl | hr
    · exact hlt
    · exact hlt.trans_le ((hle q (List.mem_cons_of_mem p List.mem_cons_self)).trans
        ((List.pairwise_cons.1 htail).1 r hr))
  | case4 p q l hlt ih =>
    exact ih (fun r hr => hle r (List.mem_cons_of_mem p hr)) (List.pairwise_cons.1 h).2

omit [DecidableEq V] in
/-- All keys survive if no two neighbours start together. -/
theorem survivors_eq_self_iff :
    survivors l = l ↔ l.IsChain fun p q => p.1.lower < q.1.lower := by
  fun_induction survivors l with
  | case1 => simp
  | case2 p => simp
  | case3 p q l hlt ih => simp [ih, hlt]
  | case4 p q l hlt ih =>
    refine iff_of_false (fun heq => ?_) fun hc => hlt (List.isChain_cons_cons.1 hc).1
    have hlen := (survivors_sublist (l := q :: l)).length_le
    rw [heq, List.length_cons] at hlen
    omega

end Closed

end IntervalDict

end Svoe.Portion
