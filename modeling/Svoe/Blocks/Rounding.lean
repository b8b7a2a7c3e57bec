import Mathlib.Data.List.Chain
import Mathlib.Data.List.Flatten
import Svoe.Blocks.Blockwise

/-!
# Rounded block boundaries

The storage rounds the times of a record to milliseconds (`roundMeta`), the blocks themselves are
not rounded.  Timestamps are the values of doubles, and `round(f, 3)` is any function of these that
keeps their order and its own results.  For a stateless feature, computed block by block with the
identity grouping:

* `oneOutputPerEvent_iff` : every event gets exactly one output if and only if no first timestamp
  of a block is rounded up, no last timestamp is rounded down, and no two neighbouring blocks are
  rounded to the same start.
* `not_oneOutputPerEvent_earlyEvent` : an event in the first half of a millisecond before its
  rounded start gets none.
-/

namespace Svoe

open Portion Series

variable {F α β : Type*} {round : ℚ → ℚ}

/-- What `_get_data_sources_meta` makes of a record's times. -/
def roundMeta (round : ℚ → ℚ) (m : BlockMeta) : BlockMeta :=
  { m with startTs := round m.startTs, endTs := round m.endTs }

/-- A stream that maps its events one by one. -/
def mapEvents (g : Event α → Event β) (named : List (F × Event α)) : List (Event β) :=
  named.map fun p => g p.2

/-- Computing a stateless feature for the stored records of blocks gives exactly one output for
every event. -/
def OneOutputPerEvent [DecidableEq F] (round : ℚ → ℚ) (metas : List BlockMeta)
    (load : String → List (Event α)) (g : Event α → Event β) (dep : F) : Prop :=
  ∃ d outs, identityGroupingWith round (metas.map (roundMeta round)) = .ok d ∧
    computeBlocks dep load (mapEvents g) d = .ok outs ∧
    outs.flatten.Perm ((metas.flatMap fun m => load m.path).map g)

/-! ### Lists of parts -/

section

variable {ι γ : Type*} {s l : List ι} {f g : ι → List γ}

theorem flatMap_sublist_flatMap (hs : s.Sublist l) (hfg : ∀ a ∈ l, (f a).Sublist (g a)) :
    (s.flatMap f).Sublist (l.flatMap g) :=
  (hs.flatMap f).trans (List.Sublist.flatMap_right l hfg)

/-- Parts of some members are everything only if they are all of every member. -/
theorem flatMap_perm_flatMap_iff (hs : s.Sublist l) (hfg : ∀ a ∈ l, (f a).Sublist (g a))
    (hne : ∀ a ∈ l, g a ≠ []) :
    (s.flatMap f).Perm (l.flatMap g) ↔ s = l ∧ ∀ a ∈ l, f a = g a := by
  constructor
  · intro hperm
    have hlen := hperm.length_eq
    clear hperm
    induction hs with
    | slnil => simp
    | @cons s l a hs ih =>
      -- a missing member leaves out at least one element
      have hle := (flatMap_sublist_flatMap hs fun b hb =>
        hfg b (List.mem_cons_of_mem a hb)).length_le
      have hpos := List.length_pos_iff.2 (hne a List.mem_cons_self)
      rw [List.flatMap_cons, List.length_append] at hlen
      omega
    | @cons_cons s l a hs ih =>
      have hle := (flatMap_sublist_flatMap hs fun b hb =>
        hfg b (List.mem_cons_of_mem a hb)).length_le
      have ha := hfg a List.mem_cons_self
      have hla := ha.length_le
      rw [List.flatMap_cons, List.flatMap_cons, List.length_append, List.length_append] at hlen
      obtain ⟨rfl, heq⟩ := ih (fun b hb => hfg b (List.mem_cons_of_mem a hb))
        (fun b hb => hne b (List.mem_cons_of_mem a hb)) (by omega)
      exact ⟨rfl, List.forall_mem_cons.2 ⟨ha.eq_of_length (by omega), heq⟩⟩
  · rintro ⟨rfl, heq⟩
    rw [List.flatMap_congr heq]

end

/-! ### The outputs of the blocks -/

section Blocks

variable {metas : List BlockMeta} {load : String → List (Event α)} {g : Event α → Event β}

/-- The intervals of the records and their groups. -/
def roundedGroups (round : ℚ → ℚ) (metas : List BlockMeta) :
    List (ClosedInterval ℚ × List BlockMeta) :=
  metas.map fun m => (⟨round m.startTs, round m.endTs⟩, [roundMeta round m])

theorem identityGroupingWith_roundMeta (hmono : Monotone round)
    (hround : ∀ x, round (round x) = round x) (h : Catalogued metas load) :
    identityGroupingWith round (metas.map (roundMeta round)) =
      .ok (.ofItems ((roundedGroups round metas).map fun p => (p.1.toInterval, p.2))) := by
  unfold identityGroupingWith IntervalDict.ofItems
  generalize (IntervalDict.empty : IntervalDict (Cut ℚ) (List BlockMeta)) = res
  induction metas generalizing res with
  | nil => rfl
  | cons m metas ih =>
    have hI : metaToIntervalWith round (roundMeta round m) =
        .ok ⟨round m.startTs, round m.endTs⟩ := by
      rw [metaToIntervalWith_of_le hmono (hmono (h.start_le_stop List.mem_cons_self))]
      simp [roundMeta, hround]
    rw [List.map_cons, List.foldlM_cons, hI]
    exact ih (h.of_sublist (List.sublist_cons_self m metas)) _

theorem pairwise_roundedGroups (hmono : Monotone round) (h : Catalogued metas load) :
    (roundedGroups round metas).Pairwise fun p q => p.1.upper ≤ q.1.lower ∧ p.2 ≠ q.2 := by
  refine List.pairwise_map.2 (h.path_ne.imp fun {m m'} hmm => ⟨hmono hmm.1.le, ?_⟩)
  intro heq
  have heq : roundMeta round m = roundMeta round m' := List.singleton_inj.1 heq
  have hpath : (roundMeta round m).path = (roundMeta round m').path := by rw [heq]
  exact hmm.2 hpath

theorem lower_le_upper_roundedGroups (hmono : Monotone round) (h : Catalogued metas load) :
    ∀ p ∈ roundedGroups round metas, p.1.lower ≤ p.1.upper := by
  intro p hp
  obtain ⟨m, hm, rfl⟩ := List.mem_map.1 hp
  exact hmono (h.start_le_stop hm)

/-- The events of a group, mapped. -/
def groupOutputs (load : String → List (Event α)) (g : Event α → Event β)
    (p : ClosedInterval ℚ × List BlockMeta) : List (Event β) :=
  (p.2.flatMap fun m => load m.path).map g

/-- Those of them that lie in the interval. -/
def keptOutputs (load : String → List (Event α)) (g : Event α → Event β)
    (p : ClosedInterval ℚ × List BlockMeta) : List (Event β) :=
  (groupOutputs load g p).filter fun e => p.1.lower ≤ e.timestamp ∧ e.timestamp ≤ p.1.upper

theorem groupOutputs_eq (m : BlockMeta) (I : ClosedInterval ℚ) :
    groupOutputs load g (I, [roundMeta round m]) = (load m.path).map g := by
  simp [groupOutputs, roundMeta]

theorem calculateBlock_roundMeta (h : Catalogued metas load)
    {p : ClosedInterval ℚ × List BlockMeta} (hp : p ∈ roundedGroups round metas) (dep : F) :
    calculateBlock load (mapEvents g) p.1 [(dep, p.2)] = .ok (keptOutputs load g p) := by
  obtain ⟨m, hm, rfl⟩ := List.mem_map.1 hp
  have hmerge := mergeBlockRange_reverse (h.of_sublist (List.singleton_sublist.2 hm)) dep
  have hmap : mapEvents g ((load m.path).map fun e => (dep, e)) = (load m.path).map g := by
    simp [mapEvents, Function.comp_def]
  rw [List.flatMap_singleton] at hmerge
  rw [calculateBlock, List.map_singleton, List.map_singleton, mergeBlocks,
    show load (roundMeta round m).path = load m.path from rfl,
    show [load m.path] = [m].reverse.map fun m => load m.path from rfl, hmerge, keptOutputs,
    groupOutputs_eq, ← hmap]
  rfl

theorem keptOutputs_sublist (p : ClosedInterval ℚ × List BlockMeta) :
    (keptOutputs load g p).Sublist (groupOutputs load g p) := List.filter_sublist

/-- The outputs of the blocks whose interval the next one does not cover. -/
theorem computeBlocks_roundedGroups [DecidableEq F] (hmono : Monotone round)
    (h : Catalogued metas load) (dep : F) :
    computeBlocks dep load (mapEvents g)
        (.ofItems ((roundedGroups round metas).map fun p => (p.1.toInterval, p.2))) =
      .ok ((IntervalDict.survivors (roundedGroups round metas)).map (keptOutputs load g)) := by
  rw [computeBlocks, getOverlaps_single_touching dep (lower_le_upper_roundedGroups hmono h)
    (pairwise_roundedGroups hmono h)]
  refine mapM_eq_ok_iff.2 ?_
  rw [List.forall₂_map_left_iff, List.forall₂_map_right_iff, List.forall₂_same]
  exact fun p hp => calculateBlock_roundMeta h (IntervalDict.survivors_sublist.subset hp) dep

/-- All of a block's events lie in its interval if its first and its last one do. -/
theorem keptOutputs_eq_iff (h : Catalogued metas load) {m : BlockMeta} (hm : m ∈ metas)
    (hstamp : ∀ e, (g e).timestamp = e.timestamp) (I : ClosedInterval ℚ) :
    keptOutputs load g (I, [roundMeta round m]) = groupOutputs load g (I, [roundMeta round m]) ↔
      I.lower ≤ m.startTs ∧ m.endTs ≤ I.upper := by
  rw [keptOutputs, List.filter_eq_self, groupOutputs_eq, List.forall_mem_map]
  simp only [hstamp, decide_eq_true_eq]
  constructor
  · intro hall
    obtain ⟨e, es, hes, hts⟩ := h.exists_start hm
    obtain ⟨e', es', hes', hts'⟩ := h.exists_stop hm
    exact ⟨hts ▸ (hall e (by simp [hes])).1, hts' ▸ (hall e' (by simp [hes'])).2⟩
  · rintro ⟨hlow, hup⟩ e he
    exact ⟨hlow.trans (h.mem_range hm he).1, (h.mem_range hm he).2.trans hup⟩

/-- What the blocks compute, for the grouping that the stored records give. -/
theorem oneOutputPerEvent_iff_perm [DecidableEq F] (hmono : Monotone round)
    (hround : ∀ x, round (round x) = round x) (h : Catalogued metas load) (dep : F) :
    OneOutputPerEvent round metas load g dep ↔
      ((IntervalDict.survivors (roundedGroups round metas)).flatMap (keptOutputs load g)).Perm
        ((roundedGroups round metas).flatMap (groupOutputs load g)) := by
  have hevents : (metas.flatMap fun m => load m.path).map g =
      (roundedGroups round metas).flatMap (groupOutputs load g) := by
    rw [List.map_flatMap, roundedGroups, List.flatMap_map]
    simp only [groupOutputs_eq]
  unfold OneOutputPerEvent
  rw [identityGroupingWith_roundMeta hmono hround h, hevents]
  constructor
  · rintro ⟨d, outs, hd, houts, hperm⟩
    obtain rfl := Except.ok.inj hd
    obtain rfl := Except.ok.inj ((computeBlocks_roundedGroups hmono h dep).symm.trans houts)
    exact hperm
  · exact fun hperm => ⟨_, _, rfl, computeBlocks_roundedGroups hmono h dep, hperm⟩

/-- **Exactly one output for every event** is what a stateless feature gives if and only if no
block starts before its rounded start or ends behind its rounded end, and no two neighbours start
in the same millisecond. -/
theorem oneOutputPerEvent_iff [DecidableEq F] (hmono : Monotone round)
    (hround : ∀ x, round (round x) = round x) (h : Catalogued metas load)
    (hstamp : ∀ e, (g e).timestamp = e.timestamp) (dep : F) :
    OneOutputPerEvent round metas load g dep ↔
      (∀ m ∈ metas, round m.startTs ≤ m.startTs ∧ m.endTs ≤ round m.endTs) ∧
      metas.IsChain fun m m' => round m.startTs < round m'.startTs := by
  have hne : ∀ p ∈ roundedGroups round metas, groupOutputs load g p ≠ [] := by
    intro p hp
    obtain ⟨m, hm, rfl⟩ := List.mem_map.1 hp
    rw [groupOutputs_eq, Ne, List.map_eq_nil_iff]
    exact h.ne_nil hm
  rw [oneOutputPerEvent_iff_perm hmono hround h,
    flatMap_perm_flatMap_iff IntervalDict.survivors_sublist (fun p _ => keptOutputs_sublist p) hne,
    IntervalDict.survivors_eq_self_iff, and_comm]
  refine and_congr ?_ (List.isChain_map _)
  rw [roundedGroups, List.forall_mem_map]
  exact forall₂_congr fun m hm => keptOutputs_eq_iff h hm hstamp _

end Blocks

theorem oneOutputPerEvent_threeMetas :
    OneOutputPerEvent roundFloat threeMetas threeLoads id "mid" :=
  (oneOutputPerEvent_iff (fun _ _ => roundFloat_mono) roundFloat_roundFloat
    ⟨by decide +kernel, by decide +kernel, by decide +kernel, by decide +kernel⟩
    (fun _ => rfl) "mid").2 ⟨by decide +kernel, by decide +kernel⟩

/-- A block whose first event is 600 microseconds behind a millisecond. -/
def earlyMeta : BlockMeta := ⟨10006 / 10000, 2, "a"⟩

/-- Its two events. -/
def earlyLoad (_ : String) : List (Event ℕ) := [⟨10006 / 10000, 1⟩, ⟨2, 2⟩]

theorem not_oneOutputPerEvent_earlyEvent :
    Catalogued [earlyMeta] earlyLoad ∧
      ¬ OneOutputPerEvent roundFloat [earlyMeta] earlyLoad id "mid" := by
  have hcat : Catalogued [earlyMeta] earlyLoad :=
    ⟨by decide +kernel, by decide +kernel, by decide +kernel, by decide +kernel⟩
  refine ⟨hcat, fun hone => ?_⟩
  have hperm := (oneOutputPerEvent_iff_perm (fun _ _ => roundFloat_mono) roundFloat_roundFloat
    hcat "mid").1 hone
  have heval : (IntervalDict.survivors (roundedGroups roundFloat [earlyMeta])).flatMap
      (keptOutputs earlyLoad id) = [⟨2, 2⟩] := by decide +kernel
  rw [heval] at hperm
  exact absurd hperm.length_eq (by decide +kernel)

end Svoe
