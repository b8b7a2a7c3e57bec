import Svoe.L2Book.Grouping
import Svoe.Portion.Bounds

/-!
# The groupings of the feature definitions

Every feature definition groups the blocks of a dependency: one to one, with a window of previous
blocks, by snapshots, or (`OHLCVFD`) by fixed windows.

* `fixedWindowLoop_of_le` : the loop over the windows ends.
* `Grouping.group_spec` : the groups are non-empty lists of the given blocks, and the ends of their
  intervals are multiples of a millisecond.
-/

namespace Svoe

open Portion

/-! ### Fixed windows -/

/-- The parameters of `OHLCVFD._group_by_fixed_window`; with no windows in a group it would not
end. -/
structure FixedWindow where
  window : Window
  numGroupedWindows : ℕ
  pos : 0 < numGroupedWindows

/-- The group of the interval from `startTs` to `endTs`. -/
def windowGroup (ranges : List BlockMeta) (startTs endTs : ℚ) : List BlockMeta :=
  ranges.filter fun m =>
    ((startTs ≤ m.startTs ∧ m.startTs ≤ endTs) ∧ startTs ≤ m.endTs ∧ m.endTs ≤ endTs) ∨
      (m.startTs ≤ startTs ∧ startTs ≤ m.endTs) ∨ (m.startTs ≤ endTs ∧ endTs ≤ m.endTs)

/-- The test that a group is fully covered. -/
def coversWindow (group : List BlockMeta) (startTs endTs : ℚ) : Bool :=
  match group.head?, group.getLast? with
  | some first, some last => first.startTs ≤ startTs && endTs ≤ last.endTs
  | _, _ => false

/-- The loop of `OHLCVFD._group_by_fixed_window`, for at most `fuel` rounds. -/
def fixedWindowLoop (w : FixedWindow) (ranges : List BlockMeta) (lastBlockEndTs : ℚ) :
    ℕ → ℚ → IntervalDict (Cut ℚ) (List BlockMeta) → IntervalDict (Cut ℚ) (List BlockMeta)
  | 0, _, res => res
  | fuel + 1, groupStartTs, res =>
    if groupStartTs ≤ lastBlockEndTs then
      let groupEndTs := groupStartTs + w.numGroupedWindows * convertStrToSeconds w.window
      let group := windowGroup ranges groupStartTs groupEndTs
      if coversWindow group groupStartTs groupEndTs then
        fixedWindowLoop w ranges lastBlockEndTs fuel groupEndTs
          (res.set (⟨groupStartTs, groupEndTs⟩ : ClosedInterval ℚ).toInterval group)
      else
        fixedWindowLoop w ranges lastBlockEndTs fuel
          (groupStartTs + convertStrToSeconds w.window) res
    else res

/-- As many rounds as there are windows from `groupStartTs` to the end, and one more. -/
def windowRounds (w : FixedWindow) (groupStartTs lastBlockEndTs : ℚ) : ℕ :=
  ⌊(lastBlockEndTs - groupStartTs) / convertStrToSeconds w.window⌋.toNat + 1

/-- `OHLCVFD._group_by_fixed_window`. -/
def groupByFixedWindow (w : FixedWindow) (ranges : List BlockMeta) :
    Except PyError (IntervalDict (Cut ℚ) (List BlockMeta)) :=
  match ranges.head?, ranges.getLast? with
  | some first, some last =>
    match getSamplingBucketTs first.startTs w.window true with
    | .error e => .error e
    | .ok groupStartTs => .ok (fixedWindowLoop w ranges last.endTs
        (windowRounds w groupStartTs last.endTs) groupStartTs .empty)
  | _, _ => .error .index

/-- Every round moves on by a window at least, so more rounds than windows change nothing. -/
theorem fixedWindowLoop_of_le {w : FixedWindow} {ranges : List BlockMeta} {stop start : ℚ}
    {res : IntervalDict (Cut ℚ) (List BlockMeta)} {n : ℕ} (k : ℕ)
    (hn : stop < start + n * convertStrToSeconds w.window) :
    fixedWindowLoop w ranges stop (n + k) start res = fixedWindowLoop w ranges stop n start res := by
  induction n generalizing start res with
  | zero =>
    have hlt : ¬ start ≤ stop := by simpa using hn
    cases k with
    | zero => rfl
    | succ k =>
      rw [Nat.zero_add, fixedWindowLoop, fixedWindowLoop, if_neg hlt]
  | succ n ih =>
    rw [Nat.succ_add, fixedWindowLoop, fixedWindowLoop]
    split_ifs with hle
    swap
    · rfl
    dsimp only
    have hs := convertStrToSeconds_nonneg w.window
    have hone : (1 : ℚ) ≤ w.numGroupedWindows := by exact_mod_cast w.pos
    push_cast at hn
    split_ifs
    · exact ih (by nlinarith)
    · exact ih (by linarith)

/-- The rounds of the source's loop are enough: it ends behind the last block. -/
theorem lt_windowRounds (w : FixedWindow) (start stop : ℚ)
    (hpos : 0 < convertStrToSeconds w.window) :
    stop < start + windowRounds w start stop * convertStrToSeconds w.window := by
  have hfloor := Int.lt_floor_add_one ((stop - start) / convertStrToSeconds w.window)
  have hnat : (⌊(stop - start) / convertStrToSeconds w.window⌋ : ℚ) + 1 ≤
      windowRounds w start stop := by
    have := Int.self_le_toNat ⌊(stop - start) / convertStrToSeconds w.window⌋
    rw [windowRounds]
    push_cast
    exact_mod_cast by omega
  have hlt := (div_lt_iff₀ hpos).1 (hfloor.trans_le hnat)
  linarith

/-! ### All groupings -/

/-- `group_dep_ranges` of a feature definition. -/
inductive Grouping where
  | identity
  | windowed (window : Window)
  | l2Snapshot
  | fixedWindow (w : FixedWindow)

/-- The groups of the blocks of a dependency. -/
def Grouping.group (metaOf : BlockMeta → MetaField) (ranges : List BlockMeta) :
    Grouping → Except PyError (IntervalDict (Cut ℚ) (List BlockMeta))
  | .identity => identityGrouping ranges
  | .windowed window => windowedGrouping ranges window
  | .l2Snapshot => l2GroupDepRanges metaOf ranges
  | .fixedWindow w => groupByFixedWindow w ranges

/-- Groups of the given blocks: no group is empty, and the keys end at multiples of a
millisecond. -/
structure GroupsOf (metas : List BlockMeta) (d : IntervalDict (Cut ℚ) (List BlockMeta)) : Prop where
  values : ∀ v ∈ d.values, v ≠ [] ∧ v ⊆ metas
  bounds : d.BoundsIn fun c => IsMs (ofLex c).1

variable {metas ranges prev : List BlockMeta} {d res : IntervalDict (Cut ℚ) (List BlockMeta)}
  {metaOf : BlockMeta → MetaField}

theorem groupsOf_empty : GroupsOf metas .empty where
  values v hv := by cases hv
  bounds := IntervalDict.boundsIn_empty

theorem GroupsOf.set (h : GroupsOf metas d) {I : ClosedInterval ℚ} {v : List BlockMeta}
    (hlow : IsMs I.lower) (hup : IsMs I.upper) (hne : v ≠ []) (hv : v ⊆ metas) :
    GroupsOf metas (d.set I.toInterval v) where
  values w hw := by
    rcases IntervalDict.mem_values_set hw with rfl | hw
    · exact ⟨hne, hv⟩
    · exact h.values w hw
  bounds := h.bounds.set (Interval.boundsIn_ofCuts hlow hup)

theorem metaToInterval_eq_ok {m : BlockMeta} {I : ClosedInterval ℚ} (h : metaToInterval m = .ok I) :
    I = ⟨roundFloat m.startTs, roundFloat m.endTs⟩ := by
  unfold metaToInterval metaToIntervalWith at h
  split_ifs at h
  exact (Except.ok.inj h).symm

theorem groupsOf_identityGrouping (h : identityGrouping ranges = .ok d) : GroupsOf ranges d := by
  refine foldlM_invariant (fun s m s' hm hs hstep => ?_) groupsOf_empty h
  obtain ⟨I, hI, rfl⟩ := map_eq_ok_iff.1 hstep
  rw [metaToInterval_eq_ok hI]
  exact hs.set (isMs_roundFloat _) (isMs_roundFloat _) (List.cons_ne_nil _ _) (by simpa using hm)

theorem groupsOf_windowedGroupingLoop {window : Window} (hres : GroupsOf metas res)
    (hprev : prev ⊆ metas) (hranges : ranges ⊆ metas)
    (h : windowedGroupingLoop window res prev ranges = .ok d) : GroupsOf metas d := by
  induction ranges generalizing res prev with
  | nil => exact Except.ok.inj h ▸ hres
  | cons m ranges ih =>
    obtain ⟨hm, hranges⟩ := List.cons_subset.1 hranges
    rw [windowedGroupingLoop] at h
    split at h
    · cases h
    · next I hI =>
      refine ih (hres.set ?_ ?_ (List.cons_ne_nil _ _) ?_) (List.cons_subset.2 ⟨hm, hprev⟩) hranges h
      · exact metaToInterval_eq_ok hI ▸ isMs_roundFloat _
      · exact metaToInterval_eq_ok hI ▸ isMs_roundFloat _
      · exact List.cons_subset.2 ⟨hm, fun x hx => hprev ((List.takeWhile_sublist _).subset hx)⟩

/-- The blocks collected by the loop over snapshots are blocks that it has passed. -/
theorem groupsOf_l2Step {s s' : L2Grouping} {r : BlockMeta} (hr : r ∈ metas)
    (h : GroupsOf metas s.res ∧ s.curRanges ⊆ metas) (hs : s.step metaOf r = .ok s') :
    GroupsOf metas s'.res ∧ s'.curRanges ⊆ metas := by
  have happ : s.curRanges ++ [r] ⊆ metas :=
    List.append_subset.2 ⟨h.2, List.cons_subset.2 ⟨hr, List.nil_subset _⟩⟩
  obtain ⟨-, ⟨-, rfl⟩ | ⟨ts, -, ⟨-, rfl⟩ | ⟨startTs, -, rfl⟩⟩⟩ := L2Grouping.step_cases hs
  · split_ifs
    · exact ⟨h.1, happ⟩
    · exact h
  · exact ⟨h.1, happ⟩
  · exact ⟨h.1.set (isMs_roundFloat _) (isMs_roundFloat _) (by simp) happ,
      List.cons_subset.2 ⟨hr, List.nil_subset _⟩⟩

theorem groupsOf_l2GroupDepRanges (h : l2GroupDepRanges metaOf ranges = .ok d) :
    GroupsOf ranges d := by
  rw [l2GroupDepRanges] at h
  split at h
  · cases h
  · next s hs =>
    have hinv : GroupsOf ranges s.res ∧ s.curRanges ⊆ ranges :=
      foldlM_invariant (P := fun s : L2Grouping => GroupsOf ranges s.res ∧ s.curRanges ⊆ ranges)
        (fun _ _ _ hm hs hstep => groupsOf_l2Step hm hs hstep)
        ⟨groupsOf_empty, List.nil_subset _⟩ hs
    split_ifs at h with hfound
    · exact Except.ok.inj h ▸ hinv.1
    · split at h
      · cases h
      · cases h
      · dsimp only at h
        split_ifs at h with hcur
        · rw [← Except.ok.inj h]
          exact hinv.1.set (isMs_roundFloat _) (isMs_roundFloat _) hcur.1 hinv.2
        · exact Except.ok.inj h ▸ hinv.1

theorem groupsOf_fixedWindowLoop {w : FixedWindow} {stop start : ℚ} {fuel : ℕ}
    (hres : GroupsOf ranges res) (hstart : IsMs start) :
    GroupsOf ranges (fixedWindowLoop w ranges stop fuel start res) := by
  induction fuel generalizing start res with
  | zero => exact hres
  | succ fuel ih =>
    have hwindow := isMs_convertStrToSeconds w.window
    rw [fixedWindowLoop]
    split_ifs
    · dsimp only
      split_ifs with hcov
      · have hend := hstart.add (hwindow.natCast_mul w.numGroupedWindows)
        refine ih (hres.set hstart hend (fun hnil => ?_) (List.filter_subset_self _)) hend
        rw [hnil] at hcov
        cases hcov
      · exact ih hres (hstart.add hwindow)
    · exact hres

theorem groupsOf_groupByFixedWindow {w : FixedWindow} (h : groupByFixedWindow w ranges = .ok d) :
    GroupsOf ranges d := by
  unfold groupByFixedWindow at h
  split at h
  · split at h
    · cases h
    · next first last _ _ _ hstart =>
      rw [← Except.ok.inj h]
      exact groupsOf_fixedWindowLoop groupsOf_empty (isMs_getSamplingBucketTs hstart)
  · cases h

/-- **What every grouping gives**: non-empty groups of the given blocks, on intervals that end at
multiples of a millisecond. -/
theorem Grouping.group_spec {g : Grouping} (h : g.group metaOf ranges = .ok d) :
    GroupsOf ranges d := by
  cases g with
  | identity => exact groupsOf_identityGrouping h
  | windowed window =>
    exact groupsOf_windowedGroupingLoop groupsOf_empty (List.nil_subset _) (List.Subset.refl _) h
  | l2Snapshot => exact groupsOf_l2GroupDepRanges h
  | fixedWindow w => exact groupsOf_groupByFixedWindow h

end Svoe
