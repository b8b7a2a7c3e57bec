import Svoe.Blocks.Overlaps
import Svoe.Series.Cuts

/-!
# Grouping L2 blocks by their snapshots

`L2SnapshotFD.group_dep_ranges` reads the timestamps of SNAPSHOT events off the blocks' metadata.  A
group runs from the first snapshot of one block to the first snapshot of the next block that has
one; that block also starts the next group.  The last group runs to the end of the last block.

* `l2GroupDepRanges_eq_ok_iff` : which metadata can be grouped.
* `l2GroupDepRanges_spec` : the intervals are the segments between the first snapshots and the end,
  and each group has all blocks that its interval needs.
-/

namespace Svoe

open Portion Series

/-- What the metadata of a block has under `meta`: nothing, `None`, or a dict, in which there may
be a list under `snapshot_ts`. -/
inductive MetaField where
  | missing
  | null
  | dict (snapshotTs : Option (List ℚ))
  deriving DecidableEq, Repr

/-- The variables of the loop of `L2SnapshotFD.group_dep_ranges`. -/
structure L2Grouping where
  res : IntervalDict (Cut ℚ) (List BlockMeta) := .empty
  startTs : Option ℚ := none
  foundSnapshot : Bool := false
  curRanges : List BlockMeta := []

/-- One round of the loop of `L2SnapshotFD.group_dep_ranges`; `meta` is the field of that name. -/
def L2Grouping.step (metaOf : BlockMeta → MetaField) (s : L2Grouping) (r : BlockMeta) :
    Except PyError L2Grouping :=
  match metaOf r with
  | .missing => .error (.key "meta")
  | .null => .error .type
  | .dict none => .ok (if s.foundSnapshot then { s with curRanges := s.curRanges ++ [r] } else s)
  | .dict (some []) => .error .index
  | .dict (some (ts :: _)) =>
    let curRanges := s.curRanges ++ [r]
    match s.startTs with
    | none => .ok { s with startTs := some ts, foundSnapshot := true, curRanges }
    | some startTs => .ok
        { res := s.res.set
            (⟨roundFloat startTs, roundFloat ts⟩ : ClosedInterval ℚ).toInterval curRanges
          startTs := some ts
          foundSnapshot := true
          curRanges := [r] }

/-- `L2SnapshotFD.group_dep_ranges` on the blocks of its dependency. -/
def l2GroupDepRanges (metaOf : BlockMeta → MetaField) (ranges : List BlockMeta) :
    Except PyError (IntervalDict (Cut ℚ) (List BlockMeta)) :=
  match ranges.foldlM (L2Grouping.step metaOf) {} with
  | .error e => .error e
  | .ok s =>
    -- no snapshots, return empty
    if s.foundSnapshot = false then .ok s.res
    else match ranges.getLast?, s.startTs with
      | none, _ => .error .index
      | some _, none => .error .type
      | some last, some startTs =>
        -- append trailing deltas, last block
        let interval : ClosedInterval ℚ := ⟨roundFloat startTs, roundFloat last.endTs⟩
        if s.curRanges ≠ [] ∧ ¬ s.res.covers interval.toInterval then
          .ok (s.res.set interval.toInterval s.curRanges)
        else .ok s.res

/-- The first snapshot that a block's metadata lists. -/
def firstSnapshot (metaOf : BlockMeta → MetaField) (m : BlockMeta) : Option ℚ :=
  match metaOf m with
  | .dict (some (ts :: _)) => some ts
  | _ => none

/-- The metadata of a block that can be read: a dict, with a non-empty list if there is one. -/
def Readable (metaOf : BlockMeta → MetaField) (m : BlockMeta) : Prop :=
  ∃ ts, metaOf m = .dict ts ∧ ts ≠ some []

section Loop

variable {metaOf : BlockMeta → MetaField} {s s' : L2Grouping} {r m : BlockMeta}
  {passed ranges : List BlockMeta} {groups : List (ClosedInterval ℚ × List BlockMeta)}

theorem firstSnapshot_eq_some_iff {t : ℚ} :
    firstSnapshot metaOf m = some t ↔ ∃ ts, metaOf m = .dict (some (t :: ts)) := by
  unfold firstSnapshot
  split
  · next t' ts h => simp [h]
  · next h => simpa using fun ts hts => h t ts hts

/-- What a round can do: collect a block without snapshots, find the first snapshot, or close a
group at the block's first snapshot. -/
theorem L2Grouping.step_cases (h : s.step metaOf r = .ok s') :
    Readable metaOf r ∧
      ((firstSnapshot metaOf r = none ∧
          s' = if s.foundSnapshot then { s with curRanges := s.curRanges ++ [r] } else s) ∨
        ∃ ts, firstSnapshot metaOf r = some ts ∧
          ((s.startTs = none ∧ s' = { s with
              startTs := some ts
              foundSnapshot := true
              curRanges := s.curRanges ++ [r] }) ∨
            ∃ startTs, s.startTs = some startTs ∧ s' =
              { res := s.res.set (⟨roundFloat startTs, roundFloat ts⟩ :
                  ClosedInterval ℚ).toInterval (s.curRanges ++ [r])
                startTs := some ts
                foundSnapshot := true
                curRanges := [r] })) := by
  unfold L2Grouping.step at h
  match hmeta : metaOf r with
  | .missing | .null | .dict (some []) => rw [hmeta] at h; cases h
  | .dict none =>
    rw [hmeta] at h
    exact ⟨⟨none, hmeta, by simp⟩, .inl ⟨by rw [firstSnapshot, hmeta], (Except.ok.inj h).symm⟩⟩
  | .dict (some (ts :: l)) =>
    rw [hmeta] at h
    refine ⟨⟨_, hmeta, by simp⟩, .inr ⟨ts, firstSnapshot_eq_some_iff.2 ⟨l, hmeta⟩, ?_⟩⟩
    cases hstart : s.startTs with
    | none =>
      simp only [hstart] at h
      exact .inl ⟨rfl, (Except.ok.inj h).symm⟩
    | some startTs =>
      simp only [hstart] at h
      exact .inr ⟨startTs, rfl, (Except.ok.inj h).symm⟩

theorem L2Grouping.exists_step_iff : (∃ s', s.step metaOf r = .ok s') ↔ Readable metaOf r := by
  constructor
  · rintro ⟨s', h⟩
    exact (step_cases h).1
  · rintro ⟨ts, hmeta, hts⟩
    unfold L2Grouping.step
    rw [hmeta]
    match ts, hts with
    | none, _ => exact ⟨_, rfl⟩
    | some (t :: l), _ => cases s.startTs <;> exact ⟨_, rfl⟩

theorem L2Grouping.exists_foldlM_step_iff :
    (∃ s', ranges.foldlM (step metaOf) s = .ok s') ↔ ∀ m ∈ ranges, Readable metaOf m := by
  induction ranges generalizing s with
  | nil => exact iff_of_true ⟨s, rfl⟩ (by simp)
  | cons r ranges ih =>
    rw [List.forall_mem_cons, List.foldlM_cons]
    simp only [bind_eq_ok_iff]
    constructor
    · rintro ⟨s', s₁, hs₁, h⟩
      exact ⟨exists_step_iff.1 ⟨s₁, hs₁⟩, ih.1 ⟨s', h⟩⟩
    · rintro ⟨hr, h⟩
      obtain ⟨s₁, hs₁⟩ := exists_step_iff.2 hr
      obtain ⟨s', hs'⟩ := ih.2 h
      exact ⟨s', s₁, hs₁, hs'⟩

/-- A group: blocks in a row, from the first snapshot of the first one to the first snapshot or the
end of one of them. -/
def IsGroup (metaOf : BlockMeta → MetaField) (metas : List BlockMeta)
    (p : ClosedInterval ℚ × List BlockMeta) : Prop :=
  ∃ before m rest behind start stop, metas = before ++ m :: rest ++ behind ∧
    p = (⟨roundFloat start, roundFloat stop⟩, m :: rest) ∧ firstSnapshot metaOf m = some start ∧
    ∃ last ∈ m :: rest, firstSnapshot metaOf last = some stop ∨ last.endTs = stop

theorem IsGroup.append {p : ClosedInterval ℚ × List BlockMeta} (h : IsGroup metaOf passed p)
    (l : List BlockMeta) : IsGroup metaOf (passed ++ l) p := by
  obtain ⟨before, m, rest, behind, start, stop, rfl, hp⟩ := h
  exact ⟨before, m, rest, behind ++ l, start, stop, by simp, hp⟩

/-- A group's interval starts with the first snapshot of its first block. -/
theorem IsGroup.lower_eq {p : ClosedInterval ℚ × List BlockMeta} (h : IsGroup metaOf passed p) :
    (p.2.head?.bind (firstSnapshot metaOf)).map roundFloat = some p.1.lower := by
  obtain ⟨before, m, rest, behind, start, stop, -, rfl, hm, -⟩ := h
  rw [List.head?_cons, Option.bind_some, hm]
  rfl

/-- The state of the loop after the blocks `passed`, when `groups` have been closed. -/
structure L2Grouping.Inv (metaOf : BlockMeta → MetaField) (passed : List BlockMeta)
    (groups : List (ClosedInterval ℚ × List BlockMeta)) (s : L2Grouping) : Prop where
  res : s.res = .ofItems (groups.map fun p => (p.1.toInterval, p.2))
  startTs : s.startTs = (passed.filterMap (firstSnapshot metaOf)).getLast?
  found : s.foundSnapshot = s.startTs.isSome
  waiting : s.startTs = none → s.curRanges = []
  current : ∀ start, s.startTs = some start → ∃ before m rest, passed = before ++ m :: rest ∧
    s.curRanges = m :: rest ∧ firstSnapshot metaOf m = some start
  intervals : groups.map Prod.fst = (segments (passed.filterMap (firstSnapshot metaOf))).map
    fun p => ⟨roundFloat p.1, roundFloat p.2⟩
  group : ∀ p ∈ groups, IsGroup metaOf passed p

/-- A block without snapshots is collected once a snapshot has been found. -/
theorem L2Grouping.Inv.collect (h : Inv metaOf passed groups s)
    (hnone : firstSnapshot metaOf r = none) :
    Inv metaOf (passed ++ [r]) groups
      (if s.foundSnapshot then { s with curRanges := s.curRanges ++ [r] } else s) := by
  have hsame : (passed ++ [r]).filterMap (firstSnapshot metaOf) =
      passed.filterMap (firstSnapshot metaOf) := by
    simp [hnone]
  have hgroup : ∀ p ∈ groups, IsGroup metaOf (passed ++ [r]) p := fun p hp =>
    (h.group p hp).append [r]
  rcases Option.eq_none_or_eq_some s.startTs with hstart | ⟨start, hstart⟩
  · have hfound : s.foundSnapshot = false := by rw [h.found, hstart]; rfl
    rw [if_neg (by simp [hfound])]
    exact ⟨h.res, by rw [hsame, h.startTs], h.found, h.waiting, by simp [hstart],
      by rw [hsame, h.intervals], hgroup⟩
  · have hfound : s.foundSnapshot = true := by rw [h.found, hstart]; rfl
    rw [if_pos hfound]
    obtain ⟨before, m, rest, rfl, hcur, hm⟩ := h.current start hstart
    refine ⟨h.res, by rw [hsame, ← h.startTs], h.found, by simp [hstart], ?_,
      by rw [hsame, h.intervals], hgroup⟩
    rintro start' hstart'
    obtain rfl := Option.some.inj (hstart.symm.trans hstart')
    exact ⟨before, m, rest ++ [r], by simp, by simp [hcur], hm⟩

/-- The first snapshot opens the first group. -/
theorem L2Grouping.Inv.first (h : Inv metaOf passed groups s) {ts : ℚ}
    (hts : firstSnapshot metaOf r = some ts) (hstart : s.startTs = none) :
    Inv metaOf (passed ++ [r]) groups
      { s with startTs := some ts, foundSnapshot := true, curRanges := s.curRanges ++ [r] } := by
  have hnil : passed.filterMap (firstSnapshot metaOf) = [] := by
    rw [← List.getLast?_eq_none_iff, ← h.startTs, hstart]
  have hstarts : (passed ++ [r]).filterMap (firstSnapshot metaOf) = [ts] := by
    simp [hnil, hts]
  refine ⟨h.res, by rw [hstarts]; rfl, rfl, by simp, ?_, ?_, fun p hp =>
    (h.group p hp).append [r]⟩
  · rintro start' hstart'
    obtain rfl := Option.some.inj hstart'
    exact ⟨passed, r, [], rfl, by rw [h.waiting hstart, List.nil_append], hts⟩
  · rw [hstarts, h.intervals, hnil]
    rfl

/-- The next snapshot closes the group and opens another one. -/
theorem L2Grouping.Inv.close (h : Inv metaOf passed groups s) {startTs ts : ℚ}
    (hts : firstSnapshot metaOf r = some ts) (hstart : s.startTs = some startTs) :
    Inv metaOf (passed ++ [r])
      (groups ++ [(⟨roundFloat startTs, roundFloat ts⟩, s.curRanges ++ [r])])
      { res := s.res.set (⟨roundFloat startTs, roundFloat ts⟩ :
          ClosedInterval ℚ).toInterval (s.curRanges ++ [r])
        startTs := some ts
        foundSnapshot := true
        curRanges := [r] } := by
  obtain ⟨before, m, rest, hpassed, hcur, hm⟩ := h.current startTs hstart
  have hlast : (passed.filterMap (firstSnapshot metaOf)).getLast? = some startTs :=
    h.startTs.symm.trans hstart
  obtain ⟨starts, hstarts⟩ := List.getLast?_eq_some_iff.1 hlast
  have hstarts' :
      (passed ++ [r]).filterMap (firstSnapshot metaOf) = starts ++ [startTs] ++ [ts] := by
    simp [hstarts, hts]
  refine ⟨?_, ?_, rfl, by simp, ?_, ?_, ?_⟩
  · simp only [IntervalDict.ofItems, List.map_append, List.foldl_append, h.res]
    rfl
  · rw [hstarts', List.getLast?_concat]
  · rintro start' hstart'
    obtain rfl := Option.some.inj hstart'
    exact ⟨passed, r, [], rfl, rfl, hts⟩
  · rw [hstarts', segments_concat, List.map_append, List.map_append, h.intervals, hstarts]
    rfl
  · intro p hp
    rcases List.mem_append.1 hp with hp | hp
    · exact (h.group p hp).append [r]
    · rw [List.mem_singleton.1 hp]
      exact ⟨before, m, rest ++ [r], [], startTs, ts, by simp [hpassed], by simp [hcur], hm, r,
        by simp, .inl hts⟩

/-- One round keeps the invariant. -/
theorem L2Grouping.Inv.step (h : Inv metaOf passed groups s) (hs : s.step metaOf r = .ok s') :
    ∃ groups', Inv metaOf (passed ++ [r]) groups' s' := by
  obtain ⟨-, hcase⟩ := step_cases hs
  rcases hcase with ⟨hnone, rfl⟩ | ⟨ts, hts, ⟨hstart, rfl⟩ | ⟨startTs, hstart, rfl⟩⟩
  · exact ⟨groups, h.collect hnone⟩
  · exact ⟨groups, h.first hts hstart⟩
  · exact ⟨_, h.close hts hstart⟩

theorem L2Grouping.Inv.foldlM (h : Inv metaOf passed groups s)
    (hs : ranges.foldlM (L2Grouping.step metaOf) s = .ok s') :
    ∃ groups', Inv metaOf (passed ++ ranges) groups' s' := by
  induction ranges generalizing passed groups s with
  | nil =>
    obtain rfl := Except.ok.inj hs
    exact ⟨groups, by rwa [List.append_nil]⟩
  | cons r ranges ih =>
    rw [List.foldlM_cons, bind_eq_ok_iff] at hs
    obtain ⟨s₁, hs₁, hs'⟩ := hs
    obtain ⟨groups₁, h₁⟩ := h.step hs₁
    obtain ⟨groups', h'⟩ := ih h₁ hs'
    exact ⟨groups', by rwa [List.append_cons]⟩

/-- The loop ends with the closed groups of all blocks. -/
theorem L2Grouping.exists_inv (h : ranges.foldlM (step metaOf) {} = .ok s) :
    ∃ groups, Inv metaOf ranges groups s := by
  have hinit : Inv metaOf [] [] {} := ⟨rfl, rfl, rfl, fun _ => rfl, by simp, rfl, by simp⟩
  exact hinit.foldlM h

/-- **The blocks can be grouped** if and only if their metadata can be read. -/
theorem l2GroupDepRanges_eq_ok_iff :
    (∃ d, l2GroupDepRanges metaOf ranges = .ok d) ↔ ∀ m ∈ ranges, Readable metaOf m := by
  rw [← L2Grouping.exists_foldlM_step_iff]
  constructor
  · rintro ⟨d, hd⟩
    rw [l2GroupDepRanges] at hd
    split at hd
    · cases hd
    · next s hs => exact ⟨s, hs⟩
  · rintro ⟨s, hs⟩
    obtain ⟨groups, hinv⟩ := L2Grouping.exists_inv hs
    rw [l2GroupDepRanges, hs]
    dsimp only
    rcases Option.eq_none_or_eq_some s.startTs with hstart | ⟨start, hstart⟩
    · exact ⟨s.res, if_pos (by rw [hinv.found, hstart]; rfl)⟩
    · obtain ⟨before, m, rest, rfl, -⟩ := hinv.current start hstart
      have hne := List.append_ne_nil_of_right_ne_nil before (List.cons_ne_nil m rest)
      obtain ⟨last, hlast⟩ := Option.isSome_iff_exists.1 (List.getLast?_isSome.2 hne)
      rw [if_neg (by simp [hinv.found, hstart]), hlast, hstart]
      dsimp only
      split_ifs <;> exact ⟨_, rfl⟩

end Loop

/-! ### The points that bound the groups -/

/-- The points that bound the groups: the first snapshots, and the end unless it is the last of
several. -/
def cutPoints (starts : List ℚ) (stop : ℚ) : List ℚ :=
  if 2 ≤ starts.length ∧ starts.getLast? = some stop then starts else starts ++ [stop]

section CutPoints

variable {starts : List ℚ} {stop : ℚ}

theorem pairwise_cutPoints (hlt : starts.Pairwise (· < ·)) (hle : ∀ t ∈ starts, t ≤ stop) :
    (cutPoints starts stop).Pairwise (· ≤ ·) := by
  unfold cutPoints
  split_ifs with h
  · exact hlt.imp le_of_lt
  · exact List.pairwise_append.2 ⟨hlt.imp le_of_lt, List.pairwise_singleton _ _, by simpa using hle⟩

theorem pairwise_dropLast_cutPoints (hlt : starts.Pairwise (· < ·)) :
    (cutPoints starts stop).dropLast.Pairwise (· < ·) := by
  unfold cutPoints
  split_ifs with h
  · exact hlt.sublist (List.dropLast_sublist _)
  · rwa [List.dropLast_concat]

/-- The inner points are the first snapshots but the very first, unless the end is one of them. -/
theorem mem_tail_dropLast_cutPoints (hlt : starts.Pairwise (· < ·)) (hle : ∀ t ∈ starts, t ≤ stop)
    {t : ℚ} : t ∈ (cutPoints starts stop).tail.dropLast ↔ t ∈ starts.tail ∧ t ≠ stop := by
  unfold cutPoints
  split_ifs with h
  · obtain ⟨hlen, hlast⟩ := h
    obtain ⟨l, rfl⟩ := List.getLast?_eq_some_iff.1 hlast
    match l with
    | [] => simp at hlen
    | a :: l =>
      have hl : ∀ x ∈ l, x < stop := fun x hx =>
        (List.pairwise_append.1 hlt).2.2 x (List.mem_cons_of_mem a hx) stop (by simp)
      rw [List.cons_append, List.tail_cons, List.dropLast_concat, List.mem_append]
      constructor
      · exact fun ht => ⟨.inl ht, (hl t ht).ne⟩
      · rintro ⟨ht | ht, hne⟩
        · exact ht
        · exact absurd (List.mem_singleton.1 ht) hne
  · match starts with
    | [] => simp
    | a :: starts =>
      rw [List.cons_append, List.tail_cons, List.dropLast_concat, List.tail_cons]
      refine (and_iff_left_of_imp fun ht heq => h ⟨?_, ?_⟩).symm
      · rw [List.length_cons]
        exact Nat.succ_le_succ (List.length_pos_of_mem ht)
      · -- nothing is behind `stop`
        subst heq
        obtain ⟨l₁, l₂, rfl⟩ := List.append_of_mem ht
        match l₂ with
        | [] => rw [← List.cons_append, List.getLast?_concat]
        | b :: l₂ =>
          have hlt' : t < b := (List.pairwise_cons.1 (List.pairwise_append.1
            (List.pairwise_cons.1 hlt).2).2.1).1 b List.mem_cons_self
          exact absurd (hle b (by simp)) hlt'.not_ge

theorem head?_cutPoints (a : ℚ) (starts : List ℚ) (stop : ℚ) :
    (cutPoints (a :: starts) stop).head? = some a := by
  unfold cutPoints
  split_ifs <;> rfl

theorem getLast?_tail_cutPoints (a : ℚ) (starts : List ℚ) (stop : ℚ) :
    (cutPoints (a :: starts) stop).tail.getLast? = some stop := by
  unfold cutPoints
  split_ifs with h
  · obtain ⟨hlen, hlast⟩ := h
    match starts with
    | [] => simp at hlen
    | b :: starts => exact hlast
  · rw [List.cons_append, List.tail_cons, List.getLast?_concat]

end CutPoints

/-! ### The groups of blocks in order -/

/-- Blocks in order, each with its snapshots inside, and all bounds in whole milliseconds. -/
structure SnapshotBlocks (metaOf : BlockMeta → MetaField) (metas : List BlockMeta) : Prop where
  readable : ∀ m ∈ metas, Readable metaOf m
  le : ∀ m ∈ metas, m.startTs ≤ m.endTs
  apart : metas.Pairwise fun m m' => m.endTs < m'.startTs
  inside : ∀ m ∈ metas, ∀ t, firstSnapshot metaOf m = some t → m.startTs ≤ t ∧ t ≤ m.endTs
  start_ms : ∀ m ∈ metas, ∀ t, firstSnapshot metaOf m = some t → roundFloat t = t
  stop_ms : ∀ m ∈ metas, roundFloat m.endTs = m.endTs

/-- The end of the last block. -/
def lastEnd (metas : List BlockMeta) : ℚ := (metas.getLast?.map BlockMeta.endTs).getD 0

namespace SnapshotBlocks

variable {metaOf : BlockMeta → MetaField} {metas : List BlockMeta}

/-- The first snapshots of the blocks are increasing. -/
theorem pairwise_starts (h : SnapshotBlocks metaOf metas) :
    (metas.filterMap (firstSnapshot metaOf)).Pairwise (· < ·) := by
  have hpair := h.apart.imp_of_mem fun {m m'} hm hm' hlt => And.intro hm (And.intro hm' hlt)
  refine List.Pairwise.filterMap _ ?_ hpair
  rintro m m' ⟨hm, hm', hlt⟩ t ht t' ht'
  exact (h.inside m hm t ht).2.trans_lt (hlt.trans_le (h.inside m' hm' t' ht').1)

/-- The blocks end by the end of the last one. -/
theorem end_le_lastEnd (h : SnapshotBlocks metaOf metas) {m : BlockMeta} (hm : m ∈ metas) :
    m.endTs ≤ lastEnd metas := by
  rcases metas.eq_nil_or_concat with rfl | ⟨l, last, rfl⟩
  · cases hm
  · rw [List.concat_eq_append] at hm h ⊢
    rw [lastEnd, List.getLast?_concat, Option.map_some, Option.getD_some]
    rcases List.mem_append.1 hm with hm' | hm'
    · exact ((List.pairwise_append.1 h.apart).2.2 m hm' last (by simp)).le.trans
        (h.le last (by simp))
    · rw [List.mem_singleton.1 hm']

theorem start_le_lastEnd (h : SnapshotBlocks metaOf metas) {t : ℚ}
    (ht : t ∈ metas.filterMap (firstSnapshot metaOf)) : t ≤ lastEnd metas := by
  obtain ⟨m, hm, hmt⟩ := List.mem_filterMap.1 ht
  exact (h.inside m hm t hmt).2.trans (h.end_le_lastEnd hm)

/-- The first snapshots are whole milliseconds. -/
theorem round_start (h : SnapshotBlocks metaOf metas) {t : ℚ}
    (ht : t ∈ metas.filterMap (firstSnapshot metaOf)) : roundFloat t = t := by
  obtain ⟨m, hm, hmt⟩ := List.mem_filterMap.1 ht
  exact h.start_ms m hm t hmt

end SnapshotBlocks

/-- What the closed groups cover: the rest from the last first snapshot on, only if it is empty. -/
theorem covers_trailing_iff {groups : List (ClosedInterval ℚ × List BlockMeta)} {starts : List ℚ}
    {start stop : ℚ} (hgroups : groups.map Prod.fst = (segments starts).map fun p => ⟨p.1, p.2⟩)
    (hlt : starts.Pairwise (· < ·)) (hstart : starts.getLast? = some start) (hle : start ≤ stop) :
    (IntervalDict.ofItems (groups.map fun p => (p.1.toInterval, p.2))).covers
        (⟨start, stop⟩ : ClosedInterval ℚ).toInterval ↔
      2 ≤ starts.length ∧ starts.getLast? = some stop := by
  have hlook : ∀ c, (IntervalDict.ofItems (groups.map fun p => (p.1.toInterval, p.2))).lookup c ≠
      none ↔ ∃ p ∈ segments starts, c ∈ (⟨p.1, p.2⟩ : ClosedInterval ℚ).toInterval := by
    intro c
    have hfst : (∃ p ∈ groups, c ∈ p.1.toInterval) ↔
        ∃ I ∈ groups.map Prod.fst, c ∈ I.toInterval := by
      simp only [List.mem_map, exists_exists_and_eq_and]
    rw [ne_eq, IntervalDict.lookup_ofItems_eq_none_iff, List.forall_mem_map]
    push Not
    rw [hfst, hgroups]
    simp only [List.mem_map, exists_exists_and_eq_and]
  obtain ⟨l, rfl⟩ := List.getLast?_eq_some_iff.1 hstart
  rw [IntervalDict.covers_iff, List.getLast?_concat, Option.some.injEq]
  constructor
  · intro h
    have hmem : stop ∈ (⟨start, stop⟩ : ClosedInterval ℚ) := ⟨hle, le_rfl⟩
    obtain ⟨p, hp, hc⟩ := (hlook _).1 (h _ (ClosedInterval.before_mem_toInterval.2 hmem))
    have hstop : stop ≤ p.2 := (ClosedInterval.before_mem_toInterval.1 hc).2
    have hp2 := (mem_of_mem_segments hp).2
    refine ⟨?_, hle.antisymm (hstop.trans ?_)⟩
    · have hpos := List.length_pos_of_mem hp2
      rw [List.length_tail] at hpos
      omega
    · rcases List.mem_append.1 (List.mem_of_mem_tail hp2) with hl | hl
      · exact ((List.pairwise_append.1 hlt).2.2 p.2 hl start (by simp)).le
      · exact (List.mem_singleton.1 hl).le
  · rintro ⟨hlen, rfl⟩ c hc
    rcases l.eq_nil_or_concat with rfl | ⟨l, b, rfl⟩
    · simp at hlen
    · rw [List.concat_eq_append] at hlook hlt
      refine (hlook c).2 ⟨(b, start), by rw [segments_concat]; simp, ?_⟩
      have hb : b < start := (List.pairwise_append.1 hlt).2.2 b (by simp) start (by simp)
      obtain ⟨hlow, hup⟩ := Interval.mem_ofCuts.1 hc
      exact Interval.mem_ofCuts.2 ⟨(before_le_before.2 hb.le).trans hlow, hup⟩

section Spec

variable {metaOf : BlockMeta → MetaField} {metas : List BlockMeta} {s : L2Grouping}
  {groups : List (ClosedInterval ℚ × List BlockMeta)}

/-- Without a snapshot there is nothing to append after the loop. -/
theorem l2GroupDepRanges_of_none (hs : metas.foldlM (L2Grouping.step metaOf) {} = .ok s)
    (hfound : s.foundSnapshot = false) : l2GroupDepRanges metaOf metas = .ok s.res := by
  rw [l2GroupDepRanges, hs]
  dsimp only
  rw [if_pos hfound]

/-- After the loop the trailing blocks are appended, unless what they span is there already. -/
theorem l2GroupDepRanges_of_some {start : ℚ} (h : SnapshotBlocks metaOf metas)
    (hs : metas.foldlM (L2Grouping.step metaOf) {} = .ok s) (hfound : s.foundSnapshot = true)
    (hstart : s.startTs = some start)
    (hmem : start ∈ metas.filterMap (firstSnapshot metaOf)) :
    l2GroupDepRanges metaOf metas =
      if s.curRanges ≠ [] ∧ ¬ s.res.covers (⟨start, lastEnd metas⟩ : ClosedInterval ℚ).toInterval
      then .ok (s.res.set (⟨start, lastEnd metas⟩ : ClosedInterval ℚ).toInterval s.curRanges)
      else .ok s.res := by
  have hne : metas ≠ [] := by
    rintro rfl
    cases hmem
  obtain ⟨last, hlast⟩ := List.getLast?_isSome.2 hne |> Option.isSome_iff_exists.1
  have hend : lastEnd metas = last.endTs := by rw [lastEnd, hlast]; rfl
  have hround : roundFloat last.endTs = lastEnd metas := by
    rw [h.stop_ms last (List.mem_of_getLast? hlast), hend]
  rw [l2GroupDepRanges, hs]
  dsimp only
  rw [if_neg (by simp [hfound]), hlast, hstart]
  dsimp only
  rw [h.round_start hmem, hround]

/-- The closed groups span the segments between the first snapshots. -/
theorem L2Grouping.Inv.fst_eq_segments (h : SnapshotBlocks metaOf metas)
    (hinv : Inv metaOf metas groups s) :
    groups.map Prod.fst =
      (segments (metas.filterMap (firstSnapshot metaOf))).map fun p => ⟨p.1, p.2⟩ := by
  rw [hinv.intervals]
  refine List.map_congr_left fun p hp => ?_
  rw [h.round_start (mem_of_mem_segments hp).1,
    h.round_start (List.mem_of_mem_tail (mem_of_mem_segments hp).2)]

/-- The collected blocks are a group up to the end of the last one. -/
theorem L2Grouping.Inv.isGroup_trailing (h : SnapshotBlocks metaOf metas)
    (hinv : Inv metaOf metas groups s) {start : ℚ} (hstart : s.startTs = some start)
    (hmem : start ∈ metas.filterMap (firstSnapshot metaOf)) :
    IsGroup metaOf metas (⟨start, lastEnd metas⟩, s.curRanges) := by
  obtain ⟨before, m, rest, hmetas, hcur, hm⟩ := hinv.current start hstart
  have hlast : metas.getLast? = some ((m :: rest).getLast (List.cons_ne_nil m rest)) := by
    rw [hmetas, List.getLast?_append_of_ne_nil _ (List.cons_ne_nil m rest),
      List.getLast?_eq_some_getLast]
  set last := (m :: rest).getLast (List.cons_ne_nil m rest) with hlastDef
  have hend : roundFloat last.endTs = lastEnd metas := by
    rw [h.stop_ms last (List.mem_of_getLast? hlast), lastEnd, hlast]
    rfl
  refine ⟨before, m, rest, [], start, last.endTs, by rw [hmetas, List.append_nil], ?_, hm, last,
    List.getLast_mem _, .inr rfl⟩
  rw [h.round_start hmem, hend, hcur]

/-- **The groups of blocks in order**: their intervals are the segments between the cut points. -/
theorem l2GroupDepRanges_spec {metaOf : BlockMeta → MetaField} {metas : List BlockMeta}
    (h : SnapshotBlocks metaOf metas) :
    ∃ groups : List (ClosedInterval ℚ × List BlockMeta), l2GroupDepRanges metaOf metas =
        .ok (.ofItems (groups.map fun p => (p.1.toInterval, p.2))) ∧
      groups.map Prod.fst = (segments (cutPoints (metas.filterMap (firstSnapshot metaOf))
        (lastEnd metas))).map (fun p => ⟨p.1, p.2⟩) ∧
      ∀ p ∈ groups, IsGroup metaOf metas p := by
  obtain ⟨s, hs⟩ := L2Grouping.exists_foldlM_step_iff.2 h.readable
  obtain ⟨groups, hinv⟩ := L2Grouping.exists_inv hs
  have hfst := hinv.fst_eq_segments h
  set starts := metas.filterMap (firstSnapshot metaOf) with hstarts
  rcases Option.eq_none_or_eq_some s.startTs with hstart | ⟨start, hstart⟩
  · have hnil : starts = [] := by rw [← List.getLast?_eq_none_iff, ← hinv.startTs, hstart]
    have hfound : s.foundSnapshot = false := by rw [hinv.found, hstart]; rfl
    refine ⟨groups, ?_, ?_, hinv.group⟩
    · rw [l2GroupDepRanges_of_none hs hfound, hinv.res]
    · rw [hfst, hnil]
      rfl
  · have hlast : starts.getLast? = some start := hinv.startTs.symm.trans hstart
    have hmem : start ∈ starts := List.mem_of_getLast? hlast
    have hfound : s.foundSnapshot = true := by rw [hinv.found, hstart]; rfl
    have hcur : s.curRanges ≠ [] := by
      obtain ⟨-, m, rest, -, hcur, -⟩ := hinv.current start hstart
      simp [hcur]
    have hcov := covers_trailing_iff hfst h.pairwise_starts hlast (h.start_le_lastEnd hmem)
    rw [l2GroupDepRanges_of_some h hs hfound hstart hmem, hinv.res]
    by_cases hdone : 2 ≤ starts.length ∧ starts.getLast? = some (lastEnd metas)
    · refine ⟨groups, if_neg fun hnot => hnot.2 (hcov.2 hdone), ?_, hinv.group⟩
      rw [hfst, cutPoints, if_pos hdone]
    · refine ⟨groups ++ [(⟨start, lastEnd metas⟩, s.curRanges)], ?_, ?_, ?_⟩
      · rw [if_pos ⟨hcur, fun hc => hdone (hcov.1 hc)⟩]
        simp only [IntervalDict.ofItems, List.map_append, List.foldl_append]
        rfl
      · obtain ⟨l, hl⟩ := List.getLast?_eq_some_iff.1 hlast
        rw [cutPoints, if_neg hdone, List.map_append, hfst, hl, segments_concat, List.map_append]
        rfl
      · intro p hp
        rcases List.mem_append.1 hp with hp | hp
        · exact hinv.group p hp
        · rw [List.mem_singleton.1 hp]
          exact hinv.isGroup_trailing h hstart hmem

end Spec

end Svoe
