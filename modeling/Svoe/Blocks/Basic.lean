import Svoe.Common.Frame
import Svoe.Common.Time
import Svoe.Portion.IntervalDict
import Svoe.Series.AsOf

/-!
# Blocks, their metadata and groupings

A block is a frame of events, a block's metadata is its time range (among other things).  A
grouping maps the interval of each block to the metadata of the blocks its computation reads.

`BlockSeq` is what the blocks of one feature in one range satisfy: sorted blocks that lie inside
disjoint intervals.  Then what concerns the times of one block's interval can be read off that
block and the one before it (`BlockSeq.asOf_rangeEvents`, `BlockSeq.filter_rangeEvents`).
-/

namespace Svoe

open Portion

/-- A row of a block: its timestamp and the rest of its columns. -/
structure Event (α : Type*) where
  timestamp : ℚ
  data : α
  deriving DecidableEq

/-- The fields of a block's metadata that the groupings read, and the path that identifies it. -/
structure BlockMeta where
  startTs : ℚ
  endTs : ℚ
  path : String
  deriving DecidableEq, Repr

/-- `meta_to_interval`, with `round` for `round_float`. -/
def metaToIntervalWith (round : ℚ → ℚ) (m : BlockMeta) : Except PyError (ClosedInterval ℚ) :=
  if round m.startTs > round m.endTs then
    .error (.value "start_ts cannot be greater than end_ts")
  else .ok ⟨round m.startTs, round m.endTs⟩

/-- `meta_to_interval`. -/
def metaToInterval (m : BlockMeta) : Except PyError (ClosedInterval ℚ) :=
  metaToIntervalWith roundFloat m

/-- `identity_grouping`, with `round` for `round_float`. -/
def identityGroupingWith (round : ℚ → ℚ) (ranges : List BlockMeta) :
    Except PyError (IntervalDict (Cut ℚ) (List BlockMeta)) :=
  ranges.foldlM (fun res m => (metaToIntervalWith round m).map fun I => res.set I.toInterval [m])
    .empty

/-- `identity_grouping`. -/
def identityGrouping (ranges : List BlockMeta) :
    Except PyError (IntervalDict (Cut ℚ) (List BlockMeta)) :=
  identityGroupingWith roundFloat ranges

/-- The blocks `windowed_grouping` takes for a block: itself, and the previous ones (`prev`, last
first) until one ends more than a window before it starts. -/
def windowedBlocks (window : Window) (prev : List BlockMeta) (m : BlockMeta) : List BlockMeta :=
  m :: prev.takeWhile fun m' => m.startTs - m'.endTs ≤ convertStrToSeconds window

/-- The loop of `windowed_grouping`; `prev` are the blocks passed, last first. -/
def windowedGroupingLoop (window : Window) (res : IntervalDict (Cut ℚ) (List BlockMeta)) :
    List BlockMeta → List BlockMeta → Except PyError (IntervalDict (Cut ℚ) (List BlockMeta))
  | _, [] => .ok res
  | prev, m :: ranges =>
    match metaToInterval m with
    | .error e => .error e
    | .ok I => windowedGroupingLoop window (res.set I.toInterval (windowedBlocks window prev m))
        (m :: prev) ranges

/-- `windowed_grouping`. -/
def windowedGrouping (ranges : List BlockMeta) (window : Window) :
    Except PyError (IntervalDict (Cut ℚ) (List BlockMeta)) :=
  windowedGroupingLoop window .empty [] ranges

theorem metaToIntervalWith_of_le {round : ℚ → ℚ} (hmono : Monotone round) {m : BlockMeta}
    (h : m.startTs ≤ m.endTs) :
    metaToIntervalWith round m = .ok ⟨round m.startTs, round m.endTs⟩ :=
  if_neg (not_lt.2 (hmono h))

theorem metaToInterval_of_le {m : BlockMeta} (h : m.startTs ≤ m.endTs) :
    metaToInterval m = .ok ⟨roundFloat m.startTs, roundFloat m.endTs⟩ :=
  metaToIntervalWith_of_le (fun _ _ => roundFloat_mono) h

/-! ### Sequences of blocks -/

variable {α : Type*}

/-- All events of consecutive blocks. -/
def rangeEvents (blocks : List (ClosedInterval ℚ × List (Event α))) : List (Event α) :=
  blocks.flatMap Prod.snd

/-- The blocks that are the results of nodes. -/
def blocksOf {N : Type*} (block : N → List (Event α)) (nodes : List (ClosedInterval ℚ × N)) :
    List (ClosedInterval ℚ × List (Event α)) :=
  nodes.map fun p => (p.1, block p.2)

/-- The full concatenation of the results of nodes. -/
def fullFrame {N : Type*} (block : N → List (Event α)) (nodes : List (ClosedInterval ℚ × N)) :
    List (Event α) :=
  rangeEvents (blocksOf block nodes)

/-- Blocks in the order of their disjoint intervals, each sorted, non-empty and inside its own. -/
structure BlockSeq (blocks : List (ClosedInterval ℚ × List (Event α))) : Prop where
  nonempty : ∀ p ∈ blocks, p.2 ≠ []
  sorted : ∀ p ∈ blocks, isTsSorted Event.timestamp p.2
  inside : ∀ p ∈ blocks, ∀ e ∈ p.2, e.timestamp ∈ p.1
  apart : blocks.Pairwise fun p q => p.1.upper < q.1.lower

namespace BlockSeq

variable {blocks l l' : List (ClosedInterval ℚ × List (Event α))} {I : ClosedInterval ℚ}
  {B : List (Event α)}

theorem lower_le_upper (h : BlockSeq blocks) {p : ClosedInterval ℚ × List (Event α)}
    (hp : p ∈ blocks) : p.1.lower ≤ p.1.upper := by
  obtain ⟨e, he⟩ := List.exists_mem_of_ne_nil _ (h.nonempty p hp)
  exact (h.inside p hp e he).1.trans (h.inside p hp e he).2

theorem of_sublist (h : BlockSeq blocks) (hl : l.Sublist blocks) : BlockSeq l where
  nonempty p hp := h.nonempty p (hl.subset hp)
  sorted p hp := h.sorted p (hl.subset hp)
  inside p hp := h.inside p (hl.subset hp)
  apart := h.apart.sublist hl

theorem isTsSorted_rangeEvents (h : BlockSeq blocks) :
    isTsSorted Event.timestamp (rangeEvents blocks) := by
  refine List.pairwise_flatMap.2 ⟨h.sorted, ?_⟩
  refine h.apart.imp_of_mem fun {p q} hp hq hlt e he e' he' => ?_
  exact (h.inside p hp e he).2.trans (hlt.le.trans (h.inside q hq e' he').1)

/-- The events before a block lie below its interval. -/
theorem lt_of_mem_before (h : BlockSeq (l ++ (I, B) :: l')) {e : Event α}
    (he : e ∈ rangeEvents l) : e.timestamp < I.lower := by
  obtain ⟨p, hp, hep⟩ := List.mem_flatMap.1 he
  exact (h.inside p (List.mem_append_left _ hp) e hep).2.trans_lt
    ((List.pairwise_append.1 h.apart).2.2 p hp _ List.mem_cons_self)

/-- The events behind a block lie above its interval. -/
theorem lt_of_mem_behind (h : BlockSeq (l ++ (I, B) :: l')) {e : Event α}
    (he : e ∈ rangeEvents l') : I.upper < e.timestamp := by
  obtain ⟨p, hp, hep⟩ := List.mem_flatMap.1 he
  exact ((List.pairwise_cons.1 (List.pairwise_append.1 h.apart).2.1).1 p hp).trans_le
    (h.inside p (List.mem_append_right _ (List.mem_cons_of_mem _ hp)) e hep).1

theorem rangeEvents_eq : rangeEvents (l ++ (I, B) :: l') =
    rangeEvents l.dropLast ++ ((l.getLast?.elim [] Prod.snd ++ B) ++ rangeEvents l') := by
  have hl : rangeEvents l = rangeEvents l.dropLast ++ l.getLast?.elim [] Prod.snd := by
    rcases l.eq_nil_or_concat with rfl | ⟨l, p, rfl⟩ <;> simp [rangeEvents]
  simp only [rangeEvents, List.flatMap_append, List.flatMap_cons] at hl ⊢
  rw [hl]
  simp

/-- The events of the block before a block are below its interval, those of the earlier blocks as
well. -/
theorem lt_of_mem_dropLast (h : BlockSeq (l ++ (I, B) :: l')) {e : Event α}
    (he : e ∈ rangeEvents l.dropLast ∨ e ∈ l.getLast?.elim [] Prod.snd) :
    e.timestamp < I.lower := by
  refine h.lt_of_mem_before ?_
  rcases l.eq_nil_or_concat with rfl | ⟨l, p, rfl⟩
  · simp [rangeEvents] at he
  · simpa [rangeEvents] using he

/-- **The last event as of a time in a block's interval is in the block or the one before it.** -/
theorem asOf_rangeEvents (h : BlockSeq (l ++ (I, B) :: l')) {t : ℚ} (ht : t ∈ I) :
    Series.asOf Event.timestamp (rangeEvents (l ++ (I, B) :: l')) t =
      Series.asOf Event.timestamp (l.getLast?.elim [] Prod.snd ++ B) t := by
  rw [rangeEvents_eq, ← List.append_assoc,
    Series.asOf_append_of_lt fun e he => ht.2.trans_lt (h.lt_of_mem_behind he)]
  rcases l.eq_nil_or_concat with rfl | ⟨l, p, rfl⟩
  · simp [rangeEvents]
  · -- the block before is not empty, so nothing earlier is looked up
    refine Series.asOf_append_of_exists_le ?_
    obtain ⟨e, he⟩ := List.exists_mem_of_ne_nil _ (h.nonempty p (by simp))
    refine ⟨e, by simp [he], ?_⟩
    exact (h.lt_of_mem_dropLast (.inr (by simpa using he))).le.trans ht.1

/-- What is selected by a time in a block's interval is in the block. -/
theorem filter_rangeEvents (h : BlockSeq (l ++ (I, B) :: l')) {P : ℚ → Prop} [DecidablePred P]
    (hP : ∀ t, P t → t ∈ I) :
    (rangeEvents (l ++ (I, B) :: l')).filter (fun e => P e.timestamp) =
      (l.getLast?.elim [] Prod.snd ++ B).filter fun e => P e.timestamp := by
  have hlow : ∀ e, e ∈ rangeEvents l.dropLast → ¬ P e.timestamp := fun e he hp =>
    (hP _ hp).1.not_gt (h.lt_of_mem_dropLast (.inl he))
  have hhigh : ∀ e, e ∈ rangeEvents l' → ¬ P e.timestamp := fun e he hp =>
    (hP _ hp).2.not_gt (h.lt_of_mem_behind he)
  rw [rangeEvents_eq, List.filter_append, List.filter_append,
    List.filter_eq_nil_iff.2 (by simpa using hlow),
    List.filter_eq_nil_iff (l := rangeEvents l') |>.2 (by simpa using hhigh)]
  simp

end BlockSeq

/-- The selections of sorted disjoint intervals, one after the other. -/
theorem flatten_filter_intervals {β : Type*} {ts : β → ℚ} {l : List β}
    (hl : l.Pairwise fun a b => ts a ≤ ts b) {Is : List (ClosedInterval ℚ)}
    (hIs : Is.Pairwise fun I J => I.upper < J.lower) :
    (Is.map fun I => l.filter fun r => I.lower ≤ ts r ∧ ts r ≤ I.upper).flatten =
      l.filter fun r => ∃ I ∈ Is, I.lower ≤ ts r ∧ ts r ≤ I.upper := by
  induction Is with
  | nil => simp
  | cons I Is ih =>
    obtain ⟨hI, hIs⟩ := List.pairwise_cons.1 hIs
    rw [List.map_cons, List.flatten_cons, ih hIs, Series.filter_append_filter hl]
    · simp
    · rintro a - b - ⟨-, ha⟩ ⟨J, hJ, hb, -⟩
      exact ha.trans_lt ((hI J hJ).trans_le hb)

end Svoe
