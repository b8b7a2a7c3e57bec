import Mathlib.Data.List.TakeWhile
import Svoe.Blocks.Basic
import Svoe.Series.Accumulate

/-!
# Lookahead labels

`build_lookahead_graph` shifts the events of a feature back in time: the label at `ts` is the value
of the last event as of `ts + lookahead`.  Every block gets a task that reads the block and the
following ones, as far as the lookahead reaches; the last block's interval is cut by the lookahead.

A task's labels are those of the whole range (`lookaheadShift_sound`).  Rows are lost where the
lookahead of a block ends in a gap, where a block starts less than a lookahead before the end of
the range (its task raises), and where the last block is exactly as long as the lookahead
(`lookahead_complete_iff`).
-/

namespace Svoe

open Portion Series

variable {N α : Type*}

/-! ### The shift -/

/-- A row of the shifted frame; the label would be empty if no event were looked up. -/
abbrev LabelRow (α : Type*) := Event (Option α)

/-- The row that the shift of `df` makes of an event. -/
def shiftRow (df : List (Event α)) (lookaheadS : ℚ) (e : Event α) : LabelRow α :=
  ⟨e.timestamp, (asOf Event.timestamp df (e.timestamp + lookaheadS)).map Event.data⟩

/-- `lookahead_shift`. -/
def lookaheadShift (df : List (Event α)) (lookahead : Window) :
    Except PyError (List (LabelRow α)) :=
  let lookaheadS := convertStrToSeconds lookahead
  if ¬ isTsSorted Event.timestamp df then
    .error (.value "Can not lookahead shift not sorted df")
  else if lookaheadS < 1 then
    .error (.value "Lookahead interval should be more than 1s")
  else
    match df.head?, df.getLast? with
    | some first, some last => subDfTs Event.timestamp (df.map (shiftRow df lookaheadS))
        first.timestamp (last.timestamp - lookaheadS)
    | _, _ => .error .index

/-- The arguments `lookahead_shift_blocks` is bound to. -/
structure LookaheadTask (N : Type*) where
  group : List N
  interval : ClosedInterval ℚ
  lookahead : Window
  deriving DecidableEq

/-- `lookahead_shift_blocks`. -/
def lookaheadShiftBlocks (block : N → List (Event α)) (task : LookaheadTask N) :
    Except PyError (List (LabelRow α)) := do
  let shifted ← lookaheadShift (task.group.flatMap block) task.lookahead
  subDfTs Event.timestamp shifted task.interval.lower task.interval.upper

/-! ### The graph -/

/-- `is_sorted_intervals`. -/
def isSortedIntervals : List (ClosedInterval ℚ) → Bool
  | I :: J :: rest => I.upper ≤ J.lower && isSortedIntervals (J :: rest)
  | _ => true

/-- The group of a block: itself and the following blocks up to the first one that the lookahead
does not reach. -/
def lookaheadGroup (endTs : ℚ) (p : ClosedInterval ℚ × N) (rest : List (ClosedInterval ℚ × N)) :
    List (ClosedInterval ℚ × N) :=
  p :: rest.takeWhile fun q =>
    q.1.upper ≤ endTs ∨ (q.1.lower ≤ endTs ∧ endTs ≤ q.1.upper)

/-- The loop over the blocks of a range; `lastUpper` is the end of the range.  The keys of the
resulting dict are distinct, as the intervals are sorted. -/
def lookaheadTasks (lookahead : Window) (lastUpper : ℚ) :
    List (ClosedInterval ℚ × N) → List (ClosedInterval ℚ × LookaheadTask N)
  | [] => []
  | (interval, node) :: rest =>
    let lookaheadS := convertStrToSeconds lookahead
    let endTs := min (interval.upper + lookaheadS) lastUpper
    let group := (lookaheadGroup endTs (interval, node) rest).map Prod.snd
    if rest ≠ [] then
      (interval, ⟨group, interval, lookahead⟩) :: lookaheadTasks lookahead lastUpper rest
    else if interval.upper - lookaheadS > interval.lower then
      let interval := ⟨interval.lower, interval.upper - lookaheadS⟩
      [(interval, ⟨group, interval, lookahead⟩)]
    else []

/-- The last timestamp of a range. -/
def rangeEnd (nodes : List (ClosedInterval ℚ × N)) : ℚ :=
  (nodes.getLast?.map fun p => p.1.upper).getD 0

/-- The tasks of one range. -/
def shiftedNodes (lookahead : Window) (nodes : List (ClosedInterval ℚ × N)) :
    Except PyError (List (ClosedInterval ℚ × LookaheadTask N)) :=
  if isSortedIntervals (nodes.map Prod.fst) then
    .ok (lookaheadTasks lookahead (rangeEnd nodes) nodes)
  else .error (.value "Intervals should be sorted")

/-- `build_lookahead_graph`. -/
def buildLookaheadGraph
    (featureGraph : List (ClosedInterval ℚ × List (ClosedInterval ℚ × N))) (lookahead : Window) :
    Except PyError (List (ClosedInterval ℚ × List (ClosedInterval ℚ × LookaheadTask N))) :=
  featureGraph.mapM fun r => (shiftedNodes lookahead r.2).map fun tasks => (r.1, tasks)

/-! ### Blocks whose intervals are exact -/

/-- Blocks with their first and last timestamps as intervals. -/
structure ExactBlocks (blocks : List (ClosedInterval ℚ × List (Event α))) : Prop extends
    BlockSeq blocks where
  head : ∀ p ∈ blocks, p.2.head?.map Event.timestamp = some p.1.lower
  last : ∀ p ∈ blocks, p.2.getLast?.map Event.timestamp = some p.1.upper

namespace ExactBlocks

variable {block : N → List (Event α)} {ns l : List (ClosedInterval ℚ × N)}
  {p : ClosedInterval ℚ × N}

theorem of_sublist (h : ExactBlocks (blocksOf block ns)) (hl : l.Sublist ns) :
    ExactBlocks (blocksOf block l) where
  toBlockSeq := h.toBlockSeq.of_sublist (hl.map _)
  head q hq := h.head q ((hl.map _).subset hq)
  last q hq := h.last q ((hl.map _).subset hq)

theorem mem_blocksOf (block : N → List (Event α)) (hp : p ∈ ns) :
    (p.1, block p.2) ∈ blocksOf block ns :=
  List.mem_map_of_mem (f := fun p => (p.1, block p.2)) hp

theorem lower_le_upper (h : ExactBlocks (blocksOf block ns)) (hp : p ∈ ns) :
    p.1.lower ≤ p.1.upper :=
  h.toBlockSeq.lower_le_upper (mem_blocksOf block hp)

theorem pairwise (h : ExactBlocks (blocksOf block ns)) :
    ns.Pairwise fun p q => p.1.upper < q.1.lower :=
  List.pairwise_map.1 h.apart

/-- The first event of a block is at its lower end. -/
theorem exists_lower (h : ExactBlocks (blocksOf block ns)) (hp : p ∈ ns) :
    ∃ e es, block p.2 = e :: es ∧ e.timestamp = p.1.lower := by
  obtain ⟨e, he, hts⟩ := Option.map_eq_some_iff.1 (h.head _ (mem_blocksOf block hp))
  obtain ⟨es, hes⟩ := List.head?_eq_some_iff.1 he
  exact ⟨e, es, hes, hts⟩

/-- The last event of a block is at its upper end. -/
theorem exists_upper (h : ExactBlocks (blocksOf block ns)) (hp : p ∈ ns) :
    ∃ e es, block p.2 = es ++ [e] ∧ e.timestamp = p.1.upper := by
  obtain ⟨e, he, hts⟩ := Option.map_eq_some_iff.1 (h.last _ (mem_blocksOf block hp))
  obtain ⟨es, hes⟩ := List.getLast?_eq_some_iff.1 he
  exact ⟨e, es, hes, hts⟩

theorem mem_interval (h : ExactBlocks (blocksOf block ns)) (hp : p ∈ ns) {e : Event α}
    (he : e ∈ block p.2) : e.timestamp ∈ p.1 :=
  h.inside _ (mem_blocksOf block hp) e he

theorem upper_le_getLast (h : ExactBlocks (blocksOf block ns)) (hne : ns ≠ []) (hp : p ∈ ns) :
    p.1.upper ≤ (ns.getLast hne).1.upper := by
  have hpair := h.pairwise
  have hle := h.lower_le_upper (List.getLast_mem hne)
  rw [← List.dropLast_append_getLast hne] at hpair hp
  rcases List.mem_append.1 hp with hp | hp
  · exact ((List.pairwise_append.1 hpair).2.2 p hp _ (List.mem_singleton_self _)).le.trans hle
  · rw [List.mem_singleton.1 hp]

end ExactBlocks

/-- Three blocks with gaps of half a second and one second. -/
def threeNodes : List (ClosedInterval ℚ × ℕ) :=
  [(⟨0, 5⟩, 0), (⟨11 / 2, 7⟩, 1), (⟨8, 20⟩, 2)]

/-- The first and the last event of each block. -/
def threeBlocks : ℕ → List (Event ℕ)
  | 0 => [⟨0, 0⟩, ⟨5, 1⟩]
  | 1 => [⟨11 / 2, 2⟩, ⟨7, 3⟩]
  | _ => [⟨8, 4⟩, ⟨20, 5⟩]

theorem exactBlocks_threeNodes : ExactBlocks (blocksOf threeBlocks threeNodes) :=
  ⟨⟨by decide +kernel, by decide +kernel, by decide +kernel, by decide +kernel⟩,
    by decide +kernel, by decide +kernel⟩

theorem fullFrame_eq (block : N → List (Event α)) (ns : List (ClosedInterval ℚ × N)) :
    fullFrame block ns = (ns.map Prod.snd).flatMap block := by
  simp [fullFrame, rangeEvents, blocksOf, List.flatMap_map]

theorem fullFrame_cons (block : N → List (Event α)) (p : ClosedInterval ℚ × N)
    (ns : List (ClosedInterval ℚ × N)) :
    fullFrame block (p :: ns) = block p.2 ++ fullFrame block ns := by
  simp [fullFrame_eq]

theorem mem_fullFrame {block : N → List (Event α)} {ns : List (ClosedInterval ℚ × N)}
    {e : Event α} : e ∈ fullFrame block ns ↔ ∃ p ∈ ns, e ∈ block p.2 := by
  simp only [fullFrame_eq, List.flatMap_map, List.mem_flatMap]

/-! ### One task -/

section Task

variable {block : N → List (Event α)} {p : ClosedInterval ℚ × N}
  {rest T : List (ClosedInterval ℚ × N)} {lookahead : Window}

/-- A group is the block and the following ones that start before the lookahead's end. -/
theorem exists_group (h : ExactBlocks (blocksOf block (p :: rest))) (endTs : ℚ) :
    ∃ T D, rest = T ++ D ∧ lookaheadGroup endTs p rest = p :: T ∧
      (∀ q ∈ T, q.1.lower ≤ endTs) ∧ ∀ q ∈ D, endTs < q.1.lower := by
  have hP : ∀ q ∈ rest, (q.1.upper ≤ endTs ∨ (q.1.lower ≤ endTs ∧ endTs ≤ q.1.upper)) ↔
      q.1.lower ≤ endTs := by
    intro q hq
    have hle := h.lower_le_upper (List.mem_cons_of_mem p hq)
    constructor
    · rintro (hq | hq)
      · exact hle.trans hq
      · exact hq.1
    · exact fun hlow => (le_total q.1.upper endTs).imp_right fun hup => ⟨hlow, hup⟩
  have hsorted := (List.pairwise_cons.1 h.pairwise).2
  refine ⟨_, _, (List.takeWhile_append_dropWhile (p := fun q : ClosedInterval ℚ × N =>
    decide (q.1.upper ≤ endTs ∨ (q.1.lower ≤ endTs ∧ endTs ≤ q.1.upper)))).symm, rfl, ?_, ?_⟩
  · intro q hq
    have hmem := (List.takeWhile_sublist _).subset hq
    exact (hP q hmem).1 (by simpa using List.mem_takeWhile_imp hq)
  · -- a block behind one that is not in the group starts later still
    have hnot : rest.Pairwise fun q q' =>
        decide (q.1.upper ≤ endTs ∨ (q.1.lower ≤ endTs ∧ endTs ≤ q.1.upper)) = false →
          decide (q'.1.upper ≤ endTs ∨ (q'.1.lower ≤ endTs ∧ endTs ≤ q'.1.upper)) = false := by
      refine hsorted.imp_of_mem fun {q q'} hq hq' hlt => ?_
      rw [decide_eq_false_iff_not, decide_eq_false_iff_not, hP q hq, hP q' hq', not_le, not_le]
      exact fun hlow => (hlow.trans_le (h.lower_le_upper (List.mem_cons_of_mem p hq))).trans hlt
    intro q hq
    have hmem := (List.dropWhile_sublist _).subset hq
    have hfalse := Series.not_of_mem_dropWhile hnot hq
    rwa [decide_eq_false_iff_not, hP q hmem, not_le] at hfalse

/-- The end of a group: its last timestamp. -/
def groupEnd (p : ClosedInterval ℚ × N) (T : List (ClosedInterval ℚ × N)) : ℚ :=
  ((p :: T).getLast (List.cons_ne_nil p T)).1.upper

theorem lower_le_of_mem_group (h : ExactBlocks (blocksOf block (p :: T))) {e : Event α}
    (he : e ∈ fullFrame block (p :: T)) : p.1.lower ≤ e.timestamp := by
  obtain ⟨q, hq, heq⟩ := mem_fullFrame.1 he
  have hin := (h.mem_interval hq heq).1
  rcases List.mem_cons.1 hq with rfl | hq'
  · exact hin
  · exact (h.lower_le_upper List.mem_cons_self).trans
      (((List.pairwise_cons.1 h.pairwise).1 q hq').le.trans hin)

theorem lookaheadShift_group (h : ExactBlocks (blocksOf block (p :: T)))
    (hla : 1 ≤ convertStrToSeconds lookahead) :
    lookaheadShift (fullFrame block (p :: T)) lookahead =
      subDfTs Event.timestamp ((fullFrame block (p :: T)).map
        (shiftRow (fullFrame block (p :: T)) (convertStrToSeconds lookahead)))
        p.1.lower (groupEnd p T - convertStrToSeconds lookahead) := by
  obtain ⟨e, es, hes, he⟩ := h.exists_lower List.mem_cons_self
  obtain ⟨e', es', hes', he'⟩ := h.exists_upper (List.getLast_mem (List.cons_ne_nil p T))
  have hhead : (fullFrame block (p :: T)).head? = some e := by
    rw [fullFrame_cons, hes]
    rfl
  have hlast : (fullFrame block (p :: T)).getLast? = some e' := by
    rw [← List.dropLast_append_getLast (List.cons_ne_nil p T), fullFrame_eq, List.map_append,
      List.flatMap_append, List.map_singleton, List.flatMap_singleton, hes',
      ← List.append_assoc, List.getLast?_append]
    rfl
  have hsorted : isTsSorted Event.timestamp (fullFrame block (p :: T)) :=
    h.isTsSorted_rangeEvents
  unfold lookaheadShift
  simp only [hhead, hlast]
  rw [if_neg (not_not.2 hsorted), if_neg (not_lt.2 hla), he, he']
  rfl

/-- **The rows of a task**: those of its group that lie a lookahead before the group's end and in
the task's interval.  It raises if there are none. -/
theorem lookaheadShiftBlocks_eq_ok_iff (h : ExactBlocks (blocksOf block (p :: T)))
    (hla : 1 ≤ convertStrToSeconds lookahead) (upper : ℚ) {rows : List (LabelRow α)} :
    lookaheadShiftBlocks block ⟨(p :: T).map Prod.snd, ⟨p.1.lower, upper⟩, lookahead⟩ =
        .ok rows ↔
      (p.1.lower ≤ groupEnd p T - convertStrToSeconds lookahead ∧ p.1.lower ≤ upper) ∧
      rows = ((fullFrame block (p :: T)).filter fun e =>
        e.timestamp ≤ groupEnd p T - convertStrToSeconds lookahead ∧ e.timestamp ≤ upper).map
          (shiftRow (fullFrame block (p :: T)) (convertStrToSeconds lookahead)) := by
  set g := groupEnd p T - convertStrToSeconds lookahead with hg
  set G := fullFrame block (p :: T) with hG
  set shift := shiftRow G (convertStrToSeconds lookahead) with hshift
  have hlow : ∀ e ∈ G, p.1.lower ≤ e.timestamp := fun e he => lower_le_of_mem_group h he
  have hrows : ((G.map shift).filter fun r => p.1.lower ≤ r.timestamp ∧ r.timestamp ≤ g).filter
      (fun r => p.1.lower ≤ r.timestamp ∧ r.timestamp ≤ upper) =
      (G.filter fun e => e.timestamp ≤ g ∧ e.timestamp ≤ upper).map shift := by
    rw [List.filter_filter, List.filter_map]
    refine congrArg _ (List.filter_congr fun e he => Bool.eq_iff_iff.2 ?_)
    have hlow := hlow e he
    change (decide (p.1.lower ≤ e.timestamp ∧ e.timestamp ≤ upper) &&
      decide (p.1.lower ≤ e.timestamp ∧ e.timestamp ≤ g)) = true ↔
        decide (e.timestamp ≤ g ∧ e.timestamp ≤ upper) = true
    simp only [Bool.and_eq_true, decide_eq_true_eq]
    tauto
  have hne : (G.filter fun e => e.timestamp ≤ g ∧ e.timestamp ≤ upper).map shift ≠ [] ↔
      p.1.lower ≤ g ∧ p.1.lower ≤ upper := by
    rw [Ne, List.map_eq_nil_iff, List.filter_eq_nil_iff]
    simp only [decide_eq_true_eq, not_forall, not_not, exists_prop]
    constructor
    · rintro ⟨e, he, h1, h2⟩
      exact ⟨(hlow e he).trans h1, (hlow e he).trans h2⟩
    · rintro ⟨h1, h2⟩
      obtain ⟨e, es, hes, he⟩ := h.exists_lower List.mem_cons_self
      exact ⟨e, mem_fullFrame.2 ⟨p, List.mem_cons_self, by simp [hes]⟩, he ▸ h1, he ▸ h2⟩
  rw [lookaheadShiftBlocks, ← fullFrame_eq, ← hG, hG, lookaheadShift_group h hla, ← hG, ← hg,
    ← hshift, bind_eq_ok_iff]
  simp only [subDfTs_eq_ok_iff]
  constructor
  · rintro ⟨x, ⟨-, rfl⟩, hnil, hx⟩
    rw [hrows] at hx
    exact ⟨hne.1 (hx ▸ hnil), hx⟩
  · rintro ⟨hcond, rfl⟩
    refine ⟨_, ⟨fun hnil => ?_, rfl⟩, hne.2 hcond, hrows.symm⟩
    rw [hnil] at hrows
    exact hne.2 hcond hrows.symm

end Task

/-! ### Soundness -/

section Range

variable {block : N → List (Event α)} {ns : List (ClosedInterval ℚ × N)} {lookahead : Window}

/-- Every task reads consecutive blocks, from the one whose interval it starts with. -/
theorem exists_of_mem_lookaheadTasks (h : ExactBlocks (blocksOf block ns)) {lastUpper : ℚ}
    {x : ClosedInterval ℚ × LookaheadTask N} (hx : x ∈ lookaheadTasks lookahead lastUpper ns) :
    ∃ l p T D upper, ns = l ++ (p :: T ++ D) ∧
      x.2 = ⟨(p :: T).map Prod.snd, ⟨p.1.lower, upper⟩, lookahead⟩ := by
  induction ns with
  | nil => cases hx
  | cons p rest ih =>
    obtain ⟨T, D, hTD, hgroup, -, -⟩ := exists_group h
      (min (p.1.upper + convertStrToSeconds lookahead) lastUpper)
    simp only [lookaheadTasks, Prod.mk.eta, hgroup] at hx
    split_ifs at hx with hrest hlt
    · rcases List.mem_cons.1 hx with rfl | hx
      · exact ⟨[], p, T, D, p.1.upper, by rw [hTD]; rfl, rfl⟩
      · obtain ⟨l, q, T', D', upper, hl, hxl⟩ :=
          ih (h.of_sublist (List.sublist_cons_self p rest)) hx
        exact ⟨p :: l, q, T', D', upper, by rw [hl]; rfl, hxl⟩
    · obtain rfl := List.mem_singleton.1 hx
      exact ⟨[], p, T, D, _, by rw [hTD]; rfl, rfl⟩
    · cases hx

theorem isSortedIntervals_of_pairwise {Is : List (ClosedInterval ℚ)}
    (h : Is.Pairwise fun I J => I.upper < J.lower) : isSortedIntervals Is = true := by
  induction Is with
  | nil => rfl
  | cons I Is ih =>
    obtain ⟨hI, hIs⟩ := List.pairwise_cons.1 h
    cases Is with
    | nil => rfl
    | cons J Is =>
      rw [isSortedIntervals, ih hIs, Bool.and_true, decide_eq_true_eq]
      exact (hI J List.mem_cons_self).le

theorem buildLookaheadGraph_eq (h : ExactBlocks (blocksOf block ns)) (range : ClosedInterval ℚ) :
    buildLookaheadGraph [(range, ns)] lookahead =
      .ok [(range, lookaheadTasks lookahead (rangeEnd ns) ns)] := by
  have hsorted := isSortedIntervals_of_pairwise (List.pairwise_map.2 h.pairwise)
  simp only [buildLookaheadGraph, List.mapM_cons, List.mapM_nil, shiftedNodes, hsorted, if_true]
  rfl

/-- What a group knows as of a time before its end is what the whole range knows. -/
theorem asOf_group (h : ExactBlocks (blocksOf block ns)) {l T D : List (ClosedInterval ℚ × N)}
    {p : ClosedInterval ℚ × N} (hns : ns = l ++ (p :: T ++ D)) {t : ℚ}
    (hlow : ∃ e ∈ fullFrame block (p :: T), e.timestamp ≤ t) (hup : t ≤ groupEnd p T) :
    asOf Event.timestamp (fullFrame block ns) t =
      asOf Event.timestamp (fullFrame block (p :: T)) t := by
  subst hns
  have happ : fullFrame block (l ++ (p :: T ++ D)) =
      fullFrame block l ++ fullFrame block (p :: T) ++ fullFrame block D := by
    simp [fullFrame_eq]
  rw [happ, asOf_append_of_lt, asOf_append_of_exists_le hlow]
  intro e he
  obtain ⟨q, hq, heq⟩ := mem_fullFrame.1 he
  have hqns : q ∈ l ++ (p :: T ++ D) := by simp [hq]
  have hlt := (List.pairwise_append.1 (List.pairwise_append.1 h.pairwise).2.1).2.2 _
    (List.getLast_mem (List.cons_ne_nil p T)) q hq
  exact hup.trans_lt (hlt.trans_le (h.mem_interval hqns heq).1)

/-- **Every label is the last event as of a lookahead later in the whole range.** -/
theorem lookaheadShift_sound (h : ExactBlocks (blocksOf block ns))
    (hla : 1 ≤ convertStrToSeconds lookahead) (range : ClosedInterval ℚ) :
    ∃ tasks, buildLookaheadGraph [(range, ns)] lookahead = .ok [(range, tasks)] ∧
      ∀ T ∈ tasks, ∀ rows, lookaheadShiftBlocks block T.2 = .ok rows → ∀ row ∈ rows,
        (∃ e ∈ fullFrame block ns, row.timestamp = e.timestamp) ∧
        ∃ e, asOf Event.timestamp (fullFrame block ns)
            (row.timestamp + convertStrToSeconds lookahead) = some e ∧ row.data = some e.data := by
  refine ⟨_, buildLookaheadGraph_eq h range, fun x hx rows hrows row hrow => ?_⟩
  obtain ⟨l, p, T, D, upper, hns, hxeq⟩ := exists_of_mem_lookaheadTasks h hx
  have hG : ExactBlocks (blocksOf block (p :: T)) := h.of_sublist
    (hns ▸ (List.sublist_append_left _ D).trans (List.sublist_append_right l _))
  rw [hxeq, lookaheadShiftBlocks_eq_ok_iff hG hla] at hrows
  rw [hrows.2] at hrow
  obtain ⟨e, he, rfl⟩ := List.mem_map.1 hrow
  obtain ⟨heG, hle⟩ := List.mem_filter.1 he
  rw [decide_eq_true_eq] at hle
  have hlow : e.timestamp ≤ e.timestamp + convertStrToSeconds lookahead := by linarith
  refine ⟨⟨e, ?_, rfl⟩, ?_⟩
  · obtain ⟨q, hq, heq⟩ := mem_fullFrame.1 heG
    have hqns : q ∈ ns := hns ▸ List.mem_append_right l (List.mem_append_left D hq)
    exact mem_fullFrame.2 ⟨q, hqns, heq⟩
  · have hgroup := asOf_group h hns ⟨e, heG, hlow⟩ (by linarith [hle.1])
    cases hasOf : asOf Event.timestamp (fullFrame block (p :: T))
        (e.timestamp + convertStrToSeconds lookahead) with
    | none => exact absurd (asOf_eq_none_iff.1 hasOf e heG) (not_lt.2 hlow)
    | some e' =>
      refine ⟨e', hgroup.trans hasOf, ?_⟩
      simp [shiftRow, hasOf]

theorem lookaheadShift_sound_threeNodes :
    ∃ tasks, buildLookaheadGraph [(⟨0, 20⟩, threeNodes)] ⟨2, .s⟩ = .ok [(⟨0, 20⟩, tasks)] ∧
      ∀ T ∈ tasks, ∀ rows, lookaheadShiftBlocks threeBlocks T.2 = .ok rows → ∀ row ∈ rows,
        (∃ e ∈ fullFrame threeBlocks threeNodes, row.timestamp = e.timestamp) ∧
        ∃ e, asOf Event.timestamp (fullFrame threeBlocks threeNodes)
            (row.timestamp + convertStrToSeconds ⟨2, .s⟩) = some e ∧ row.data = some e.data :=
  lookaheadShift_sound exactBlocks_threeNodes (by decide +kernel) ⟨0, 20⟩

/-! ### Completeness -/

/-- All tasks succeed, and their rows are one for every event up to a lookahead before
`lastUpper`. -/
def LookaheadComplete (block : N → List (Event α)) (lookahead : Window) (lastUpper : ℚ)
    (ns : List (ClosedInterval ℚ × N))
    (tasks : List (ClosedInterval ℚ × LookaheadTask N)) : Prop :=
  ∃ outs, tasks.mapM (fun T => lookaheadShiftBlocks block T.2) = .ok outs ∧
    outs.flatten.map Event.timestamp =
      ((fullFrame block ns).filter fun e =>
        e.timestamp ≤ lastUpper - convertStrToSeconds lookahead).map Event.timestamp

/-- The lookahead of every block that is not the last one starts inside the range, and ends inside
a later block or behind the range; the last block is not exactly as long as the lookahead. -/
def LookaheadReaches (lookahead : Window) (lastUpper : ℚ) (ns : List (ClosedInterval ℚ × N)) :
    Prop :=
  ∀ p rest, (p :: rest) <:+ ns →
    if rest = [] then p.1.upper - convertStrToSeconds lookahead ≠ p.1.lower
    else p.1.lower + convertStrToSeconds lookahead ≤ lastUpper ∧
      (lastUpper ≤ p.1.upper + convertStrToSeconds lookahead ∨
        ∃ q ∈ rest, p.1.upper + convertStrToSeconds lookahead ∈ q.1)

theorem lookaheadReaches_cons {lastUpper : ℚ} {p : ClosedInterval ℚ × N}
    {rest : List (ClosedInterval ℚ × N)} (hrest : rest ≠ []) :
    LookaheadReaches lookahead lastUpper (p :: rest) ↔
      (p.1.lower + convertStrToSeconds lookahead ≤ lastUpper ∧
        (lastUpper ≤ p.1.upper + convertStrToSeconds lookahead ∨
          ∃ q ∈ rest, p.1.upper + convertStrToSeconds lookahead ∈ q.1)) ∧
      LookaheadReaches lookahead lastUpper rest := by
  constructor
  · intro h
    refine ⟨?_, fun q rest' hq => h q rest' (hq.trans (List.suffix_cons p rest))⟩
    simpa [hrest] using h p rest List.suffix_rfl
  · rintro ⟨hp, h⟩ q rest' hq
    rcases List.suffix_cons_iff.1 hq with heq | hq
    · obtain ⟨rfl, rfl⟩ := List.cons.inj heq
      rwa [if_neg hrest]
    · exact h q rest' hq

theorem lookaheadReaches_singleton {lastUpper : ℚ} {p : ClosedInterval ℚ × N} :
    LookaheadReaches lookahead lastUpper [p] ↔
      p.1.upper - convertStrToSeconds lookahead ≠ p.1.lower := by
  constructor
  · intro h
    simpa using h p [] List.suffix_rfl
  · intro h q rest hq
    rcases List.suffix_cons_iff.1 hq with heq | hq
    · obtain ⟨rfl, rfl⟩ := List.cons.inj heq
      rwa [if_pos rfl]
    · cases List.suffix_nil.1 hq

/-- The events of a group up to the end of its first block are those of that block. -/
theorem filter_group {p : ClosedInterval ℚ × N} {T : List (ClosedInterval ℚ × N)}
    (h : ExactBlocks (blocksOf block (p :: T))) (t : ℚ) :
    (fullFrame block (p :: T)).filter (fun e => e.timestamp ≤ t ∧ e.timestamp ≤ p.1.upper) =
      (block p.2).filter fun e => e.timestamp ≤ t := by
  have hnil : (fullFrame block T).filter
      (fun e => e.timestamp ≤ t ∧ e.timestamp ≤ p.1.upper) = [] := by
    refine List.filter_eq_nil_iff.2 fun e he => ?_
    obtain ⟨q, hq, heq⟩ := mem_fullFrame.1 he
    have hlt := (List.pairwise_cons.1 h.pairwise).1 q hq
    have hlow := (h.mem_interval (List.mem_cons_of_mem p hq) heq).1
    simp only [decide_eq_true_eq, not_and, not_le]
    exact fun _ => hlt.trans_le hlow
  rw [fullFrame_cons, List.filter_append, hnil, List.append_nil]
  refine List.filter_congr fun e he => ?_
  simp [(h.mem_interval List.mem_cons_self he).2]

section Group

variable {p : ClosedInterval ℚ × N} {rest T D : List (ClosedInterval ℚ × N)} {lastUpper : ℚ}

/-- A group reaches no further than the range. -/
theorem groupEnd_le (h : ExactBlocks (blocksOf block (p :: rest)))
    (hlast : ((p :: rest).getLast (List.cons_ne_nil p rest)).1.upper = lastUpper)
    (hrest : rest = T ++ D) : groupEnd p T ≤ lastUpper := by
  have hsub : (p :: T).Sublist (p :: rest) :=
    (hrest ▸ List.sublist_append_left T D : T.Sublist rest).cons_cons p
  have hmem : (p :: T).getLast (List.cons_ne_nil p T) ∈ p :: rest :=
    hsub.subset (List.getLast_mem _)
  exact hlast ▸ h.upper_le_getLast (List.cons_ne_nil p rest) hmem

/-- The last event of a block is due, so the group reaches a lookahead behind it. -/
theorem upper_le_of_complete {t : ℚ} (h : ExactBlocks (blocksOf block (p :: rest)))
    (hdue : p.1.upper ≤ lastUpper - convertStrToSeconds lookahead)
    (heq : ((block p.2).filter fun e => e.timestamp ≤ t).map Event.timestamp =
      ((block p.2).filter fun e => e.timestamp ≤
        lastUpper - convertStrToSeconds lookahead).map Event.timestamp) : p.1.upper ≤ t := by
  obtain ⟨e, es, hes, he⟩ := h.exists_upper List.mem_cons_self
  have hmem : p.1.upper ∈ ((block p.2).filter fun e =>
      e.timestamp ≤ lastUpper - convertStrToSeconds lookahead).map Event.timestamp := by
    refine List.mem_map.2 ⟨e, List.mem_filter.2 ⟨by simp [hes], ?_⟩, he⟩
    rwa [decide_eq_true_eq, he]
  rw [← heq, List.mem_map] at hmem
  obtain ⟨e', he', hts⟩ := hmem
  have hle := (List.mem_filter.1 he').2
  rwa [decide_eq_true_eq, hts] at hle

/-- The group of a lookahead that ends behind the range is the whole rest of the range. -/
theorem groupEnd_eq_of_behind (h : ExactBlocks (blocksOf block (p :: rest)))
    (hlast : ((p :: rest).getLast (List.cons_ne_nil p rest)).1.upper = lastUpper)
    (hrest : rest = T ++ D)
    (hD : ∀ q ∈ D, min (p.1.upper + convertStrToSeconds lookahead) lastUpper < q.1.lower)
    (hbehind : lastUpper ≤ p.1.upper + convertStrToSeconds lookahead) :
    groupEnd p T = lastUpper := by
  have hDnil : D = [] := List.eq_nil_iff_forall_not_mem.2 fun q hq => by
    have hqmem : q ∈ p :: rest := List.mem_cons_of_mem p (hrest ▸ List.mem_append_right T hq)
    have hupper : q.1.upper ≤ lastUpper :=
      hlast ▸ h.upper_le_getLast (List.cons_ne_nil p rest) hqmem
    have hlt := hD q hq
    rw [min_eq_right hbehind] at hlt
    exact hlt.not_ge ((h.lower_le_upper hqmem).trans hupper)
  subst hDnil
  rw [List.append_nil] at hrest
  subst hrest
  exact hlast

/-- The group reaches the block that the lookahead ends in. -/
theorem upper_add_le_groupEnd (h : ExactBlocks (blocksOf block (p :: rest)))
    (hlast : ((p :: rest).getLast (List.cons_ne_nil p rest)).1.upper = lastUpper)
    (hrest : rest = T ++ D)
    (hD : ∀ q ∈ D, min (p.1.upper + convertStrToSeconds lookahead) lastUpper < q.1.lower)
    {q : ClosedInterval ℚ × N} (hq : q ∈ rest)
    (hin : p.1.upper + convertStrToSeconds lookahead ∈ q.1) :
    p.1.upper + convertStrToSeconds lookahead ≤ groupEnd p T := by
  obtain ⟨hqlow, hqup⟩ := hin
  have hqL : q.1.upper ≤ lastUpper :=
    hlast ▸ h.upper_le_getLast (List.cons_ne_nil p rest) (List.mem_cons_of_mem p hq)
  have hqT : q ∈ T := by
    rw [hrest] at hq
    refine (List.mem_append.1 hq).resolve_right fun hqD => ?_
    have hlt := hD q hqD
    rw [min_eq_left (hqup.trans hqL)] at hlt
    exact hlt.not_ge hqlow
  have hpT : (p :: T).Sublist (p :: rest) :=
    (hrest ▸ List.sublist_append_left T D : T.Sublist rest).cons_cons p
  exact hqup.trans
    ((h.of_sublist hpT).upper_le_getLast (List.cons_ne_nil p T) (List.mem_cons_of_mem p hqT))

/-- **The rows of one block are complete exactly when its lookahead starts inside the range and
ends inside a later block or behind the range.** -/
theorem complete_block_iff
    (h : ExactBlocks (blocksOf block (p :: rest))) (hla : 1 ≤ convertStrToSeconds lookahead)
    (hlast : ((p :: rest).getLast (List.cons_ne_nil p rest)).1.upper = lastUpper)
    (hrest : rest = T ++ D)
    (hT : ∀ q ∈ T, q.1.lower ≤ min (p.1.upper + convertStrToSeconds lookahead) lastUpper)
    (hD : ∀ q ∈ D, min (p.1.upper + convertStrToSeconds lookahead) lastUpper < q.1.lower) :
    (p.1.lower ≤ groupEnd p T - convertStrToSeconds lookahead ∧
        ((block p.2).filter fun e => e.timestamp ≤
          groupEnd p T - convertStrToSeconds lookahead).map Event.timestamp =
        ((block p.2).filter fun e => e.timestamp ≤
          lastUpper - convertStrToSeconds lookahead).map Event.timestamp) ↔
      p.1.lower + convertStrToSeconds lookahead ≤ lastUpper ∧
        (lastUpper ≤ p.1.upper + convertStrToSeconds lookahead ∨
          ∃ q ∈ rest, p.1.upper + convertStrToSeconds lookahead ∈ q.1) := by
  have hg := groupEnd_le h hlast hrest
  have hple := h.lower_le_upper List.mem_cons_self
  constructor
  · rintro ⟨hlow, heq⟩
    refine ⟨by linarith, ?_⟩
    by_contra! hnot
    obtain ⟨hlt, hnot⟩ := hnot
    have hreach := upper_le_of_complete h (by linarith) heq
    rcases List.mem_cons.1 (List.getLast_mem (List.cons_ne_nil p T)) with hlastp | hlastT
    · have : groupEnd p T = p.1.upper := by rw [groupEnd, hlastp]
      linarith
    · refine hnot _ (hrest ▸ List.mem_append_left D hlastT) ⟨?_, ?_⟩
      · exact (hT _ hlastT).trans (min_le_left _ _)
      · change p.1.upper + convertStrToSeconds lookahead ≤ groupEnd p T
        linarith
  · rintro ⟨hlow, hbehind | ⟨q, hq, hin⟩⟩
    · rw [groupEnd_eq_of_behind h hlast hrest hD hbehind]
      exact ⟨by linarith, rfl⟩
    · have hreach := upper_add_le_groupEnd h hlast hrest hD hq hin
      have hall : ∀ t, p.1.upper ≤ t →
          ((block p.2).filter fun e => e.timestamp ≤ t) = block p.2 := fun t ht =>
        List.filter_eq_self.2 fun e he =>
          decide_eq_true ((h.mem_interval List.mem_cons_self he).2.trans ht)
      rw [hall _ (by linarith), hall _ (by linarith)]
      exact ⟨by linarith, rfl⟩

end Group

/-- The rows of the tasks of later blocks lie behind the block. -/
theorem lt_of_mem_rows {p : ClosedInterval ℚ × N} {rest : List (ClosedInterval ℚ × N)}
    (h : ExactBlocks (blocksOf block (p :: rest))) (hla : 1 ≤ convertStrToSeconds lookahead)
    {lastUpper : ℚ} {outs : List (List (LabelRow α))}
    (houts : (lookaheadTasks lookahead lastUpper rest).mapM
      (fun T => lookaheadShiftBlocks block T.2) = .ok outs) :
    ∀ t ∈ outs.flatten.map Event.timestamp, p.1.upper < t := by
  have hrest : ExactBlocks (blocksOf block rest) := h.of_sublist (List.sublist_cons_self p rest)
  intro t ht
  obtain ⟨row, hrow, rfl⟩ := List.mem_map.1 ht
  obtain ⟨o, ho, hro⟩ := List.mem_flatten.1 hrow
  obtain ⟨x, hx, hxo⟩ := exists_of_mem_mapM houts ho
  obtain ⟨l, q, T, D, upper, hl, hxeq⟩ := exists_of_mem_lookaheadTasks hrest hx
  have hG : ExactBlocks (blocksOf block (q :: T)) := hrest.of_sublist
    (hl ▸ (List.sublist_append_left _ D).trans (List.sublist_append_right l _))
  rw [hxeq, lookaheadShiftBlocks_eq_ok_iff hG hla] at hxo
  rw [hxo.2] at hro
  obtain ⟨e, he, rfl⟩ := List.mem_map.1 hro
  have hq : q ∈ rest := by simp [hl]
  exact ((List.pairwise_cons.1 h.pairwise).1 q hq).trans_le
    (lower_le_of_mem_group hG (List.mem_filter.1 he).1)

theorem complete_singleton_iff {p : ClosedInterval ℚ × N}
    (h : ExactBlocks (blocksOf block [p])) (hla : 1 ≤ convertStrToSeconds lookahead) :
    LookaheadComplete block lookahead p.1.upper [p] (lookaheadTasks lookahead p.1.upper [p]) ↔
      p.1.upper - convertStrToSeconds lookahead ≠ p.1.lower := by
  have hfull : fullFrame block [p] = block p.2 := by simp [fullFrame_eq]
  simp only [lookaheadTasks, ne_eq, not_true_eq_false, if_false, lookaheadGroup,
    List.takeWhile_nil, Prod.mk.eta]
  split_ifs with hlt
  · refine iff_of_true ?_ hlt.ne'
    have hrun := (lookaheadShiftBlocks_eq_ok_iff h hla
      (p.1.upper - convertStrToSeconds lookahead)).2 ⟨⟨hlt.le, hlt.le⟩, rfl⟩
    refine ⟨[_], mapM_eq_ok_iff.2 (.cons hrun .nil), ?_⟩
    have hg : groupEnd p [] = p.1.upper := rfl
    simp only [hg, and_self, List.flatten_cons, List.flatten_nil, List.append_nil, List.map_map]
    rfl
  · rw [gt_iff_lt, not_lt] at hlt
    -- no task: complete when no event is due
    have hcomplete : LookaheadComplete block lookahead p.1.upper [p] [] ↔
        (block p.2).filter (fun e =>
          e.timestamp ≤ p.1.upper - convertStrToSeconds lookahead) = [] := by
      unfold LookaheadComplete
      rw [hfull]
      constructor
      · rintro ⟨outs, houts, hall⟩
        obtain rfl : [] = outs := Except.ok.inj houts
        exact List.map_eq_nil_iff.1 hall.symm
      · intro hnil
        exact ⟨[], rfl, by rw [hnil]; rfl⟩
    rw [hcomplete, List.filter_eq_nil_iff]
    obtain ⟨e, es, hes, he⟩ := h.exists_lower (List.mem_singleton_self p)
    constructor
    · intro hnone heq
      refine hnone e (by simp [hes]) ?_
      rw [decide_eq_true_eq, he, heq]
    · intro hne e' he'
      rw [decide_eq_true_eq, not_le]
      exact (lt_of_le_of_ne hlt hne).trans_le
        (h.mem_interval (List.mem_singleton_self p) he').1

theorem complete_cons_iff {p : ClosedInterval ℚ × N} {rest : List (ClosedInterval ℚ × N)}
    (h : ExactBlocks (blocksOf block (p :: rest))) (hla : 1 ≤ convertStrToSeconds lookahead)
    (hrest : rest ≠ []) {lastUpper : ℚ}
    (hlast : ((p :: rest).getLast (List.cons_ne_nil p rest)).1.upper = lastUpper) :
    LookaheadComplete block lookahead lastUpper (p :: rest)
        (lookaheadTasks lookahead lastUpper (p :: rest)) ↔
      (p.1.lower + convertStrToSeconds lookahead ≤ lastUpper ∧
        (lastUpper ≤ p.1.upper + convertStrToSeconds lookahead ∨
          ∃ q ∈ rest, p.1.upper + convertStrToSeconds lookahead ∈ q.1)) ∧
      LookaheadComplete block lookahead lastUpper rest
        (lookaheadTasks lookahead lastUpper rest) := by
  obtain ⟨T, D, hTD, hgroup, hT, hD⟩ := exists_group h
    (min (p.1.upper + convertStrToSeconds lookahead) lastUpper)
  have hG : ExactBlocks (blocksOf block (p :: T)) := h.of_sublist
    ((hTD ▸ List.sublist_append_left T D : T.Sublist rest).cons_cons p)
  rw [← complete_block_iff h hla hlast hTD hT hD]
  simp only [lookaheadTasks, Prod.mk.eta, hgroup, ne_eq, hrest, not_false_eq_true, if_true]
  -- the rows of the block's task, and the events due in the block and behind it
  have hrun : ∀ rows, lookaheadShiftBlocks block ⟨(p :: T).map Prod.snd, p.1, lookahead⟩ =
      .ok rows ↔ p.1.lower ≤ groupEnd p T - convertStrToSeconds lookahead ∧
        rows = ((block p.2).filter fun e => e.timestamp ≤
          groupEnd p T - convertStrToSeconds lookahead).map
            (shiftRow (fullFrame block (p :: T)) (convertStrToSeconds lookahead)) := by
    intro rows
    rw [← filter_group hG, lookaheadShiftBlocks_eq_ok_iff hG hla p.1.upper,
      and_iff_left (h.lower_le_upper List.mem_cons_self)]
  have hts : ∀ l : List (Event α), (l.map (shiftRow (fullFrame block (p :: T))
      (convertStrToSeconds lookahead))).map Event.timestamp = l.map Event.timestamp := fun l => by
    rw [List.map_map]
    rfl
  have hin : ∀ t, ∀ x ∈ ((block p.2).filter fun e => e.timestamp ≤ t).map Event.timestamp,
      x ≤ p.1.upper := by
    intro t x hx
    obtain ⟨e, he, rfl⟩ := List.mem_map.1 hx
    exact (h.mem_interval List.mem_cons_self (List.mem_filter.1 he).1).2
  have hbehind : ∀ x ∈ ((fullFrame block rest).filter fun e => e.timestamp ≤ lastUpper -
      convertStrToSeconds lookahead).map Event.timestamp, p.1.upper < x := by
    intro x hx
    obtain ⟨e, he, rfl⟩ := List.mem_map.1 hx
    obtain ⟨q, hq, heq⟩ := mem_fullFrame.1 (List.mem_filter.1 he).1
    exact ((List.pairwise_cons.1 h.pairwise).1 q hq).trans_le
      (h.mem_interval (List.mem_cons_of_mem p hq) heq).1
  unfold LookaheadComplete
  rw [fullFrame_cons, List.filter_append, List.map_append]
  constructor
  · rintro ⟨outs, houts, hall⟩
    rw [mapM_eq_ok_iff, List.forall₂_cons_left_iff] at houts
    obtain ⟨o, os, ho, hos, rfl⟩ := houts
    rw [← mapM_eq_ok_iff] at hos
    obtain ⟨hlow, rfl⟩ := (hrun o).1 ho
    rw [List.flatten_cons, List.map_append, hts,
      append_inj_of_le_of_lt (hin _) (lt_of_mem_rows h hla hos) (hin _) hbehind] at hall
    exact ⟨⟨hlow, hall.1⟩, os, hos, hall.2⟩
  · rintro ⟨⟨hlow, hblock⟩, os, hos, hall⟩
    refine ⟨_ :: os, mapM_eq_ok_iff.2 (.cons ((hrun _).2 ⟨hlow, rfl⟩) (mapM_eq_ok_iff.1 hos)), ?_⟩
    rw [List.flatten_cons, List.map_append, hts, hblock, hall]

/-- **The labels are complete exactly when the lookahead reaches.**  No task raises, and there is
one row for every event up to a lookahead before the end of the range. -/
theorem lookahead_complete_iff (h : ExactBlocks (blocksOf block ns))
    (hla : 1 ≤ convertStrToSeconds lookahead) (range : ClosedInterval ℚ) :
    ∃ tasks, buildLookaheadGraph [(range, ns)] lookahead = .ok [(range, tasks)] ∧
      (LookaheadComplete block lookahead (rangeEnd ns) ns tasks ↔
        LookaheadReaches lookahead (rangeEnd ns) ns) := by
  refine ⟨_, buildLookaheadGraph_eq h range, ?_⟩
  have hlast : ∀ hne : ns ≠ [], (ns.getLast hne).1.upper = rangeEnd ns := fun hne => by
    rw [rangeEnd, List.getLast?_eq_some_getLast hne]
    rfl
  generalize rangeEnd ns = lastUpper at hlast
  induction ns with
  | nil =>
    refine iff_of_true ⟨[], rfl, rfl⟩ fun p rest hp => ?_
    cases List.suffix_nil.1 hp
  | cons p rest ih =>
    by_cases hrest : rest = []
    · subst hrest
      obtain rfl : p.1.upper = lastUpper := hlast (List.cons_ne_nil p [])
      rw [lookaheadReaches_singleton, complete_singleton_iff h hla]
    · have hrec := ih (h.of_sublist (List.sublist_cons_self p rest)) fun hne => by
        rw [← hlast (List.cons_ne_nil p rest), List.getLast_cons hne]
      exact (complete_cons_iff h hla hrest (hlast (List.cons_ne_nil p rest))).trans
        ((and_congr_right fun _ => hrec).trans (lookaheadReaches_cons hrest).symm)

theorem lookahead_complete_threeNodes :
    ∃ tasks, buildLookaheadGraph [(⟨0, 20⟩, threeNodes)] ⟨2, .s⟩ = .ok [(⟨0, 20⟩, tasks)] ∧
      LookaheadComplete threeBlocks ⟨2, .s⟩ (rangeEnd threeNodes) threeNodes tasks := by
  have hla : 1 ≤ convertStrToSeconds ⟨2, .s⟩ := by decide +kernel
  obtain ⟨tasks, hdag, hiff⟩ := lookahead_complete_iff exactBlocks_threeNodes hla ⟨0, 20⟩
  refine ⟨tasks, hdag, hiff.2 ?_⟩
  rw [threeNodes, lookaheadReaches_cons (by simp), lookaheadReaches_cons (by simp),
    lookaheadReaches_singleton]
  decide +kernel

/-- With a lookahead of 2.5 seconds the first block's lookahead ends at 7.5, between the second
block and the third, and its row at 5 is lost. -/
theorem not_lookaheadComplete_threeNodes :
    ExactBlocks (blocksOf threeBlocks threeNodes) ∧
      (threeNodes.IsChain fun p q => q.1.lower - p.1.upper ≤ 1) ∧
      ¬ ∃ tasks, buildLookaheadGraph [(⟨0, 20⟩, threeNodes)] ⟨2500, .ms⟩ =
          .ok [(⟨0, 20⟩, tasks)] ∧
        LookaheadComplete threeBlocks ⟨2500, .ms⟩ (rangeEnd threeNodes) threeNodes tasks := by
  refine ⟨exactBlocks_threeNodes, by decide +kernel, ?_⟩
  rintro ⟨tasks, hdag, outs, houts, hall⟩
  have heq := Except.ok.inj ((buildLookaheadGraph_eq exactBlocks_threeNodes _).symm.trans hdag)
  obtain rfl := (Prod.mk.inj (List.cons.inj heq).1).2
  have hrun : (lookaheadTasks ⟨2500, .ms⟩ (rangeEnd threeNodes) threeNodes).mapM
      (fun T => lookaheadShiftBlocks threeBlocks T.2) =
      .ok [[⟨0, some 0⟩], [⟨11 / 2, some 4⟩, ⟨7, some 4⟩], [⟨8, some 4⟩]] := by decide +kernel
  obtain rfl := Except.ok.inj (hrun.symm.trans houts)
  revert hall
  decide +kernel

end Range

end Svoe
