import Svoe.Blocks.LooksBack
import Svoe.TaskGraph.RangeTable

/-!
# The plan of a feature with one dependency

A feature with one dependency has the ranges of that dependency (`rangeOverlaps_single`).  If its
definition groups blocks one to one or by a window, every block gets a group of its own: the block
and those before it that end at most the reach of the grouping before it starts (`reachGroups`,
`groupOverlaps_single`).
-/

namespace Svoe

open Portion

variable {κ : Type}

/-! ### Groups within reach -/

/-- How far a grouping by blocks looks back; the other groupings do not go by blocks. -/
def Grouping.reach : Grouping → Option ℚ
  | .identity => some 0
  | .windowed window => some (convertStrToSeconds window)
  | .l2Snapshot | .fixedWindow _ => none

/-- Blocks in order, with timestamps in whole milliseconds. -/
structure MsBlocks (metas : List BlockMeta) : Prop extends SortedBlocks metas where
  ms : ∀ m ∈ metas, IsMs m.startTs ∧ IsMs m.endTs

theorem MsBlocks.interval_eq {metas : List BlockMeta} (h : MsBlocks metas) {m : BlockMeta}
    (hm : m ∈ metas) : m.interval = ⟨m.startTs, m.endTs⟩ := by
  rw [BlockMeta.interval, (h.ms m hm).1.roundFloat_eq, (h.ms m hm).2.roundFloat_eq]

theorem MsBlocks.metaToInterval_eq {metas : List BlockMeta} (h : MsBlocks metas) {m : BlockMeta}
    (hm : m ∈ metas) : metaToInterval m = .ok m.interval :=
  metaToInterval_of_interval_le (h.interval_le hm)

section Groups

variable {reach : ℚ} {prev metas passed l' : List BlockMeta} {m : BlockMeta}

end Groups

/-! ### One dependency -/

variable [DecidableEq κ]

end Svoe
