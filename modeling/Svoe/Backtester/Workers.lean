import Svoe.Backtester.Execution
import Svoe.Common.Time
import Svoe.Portion.Interval

/-!
# Time ranges for workers

`split_time_range_between_ts` cuts a time range into parts of a whole number of seconds, with gaps
between them.  `Backtester.run_remotely` gives each of its workers one part.

* `splitLoop_eq` : the parts, in closed form.
* `exactSplit_partsOf_iff` : they are as many as were asked for, and end with the range, exactly if
  what the parts leave of the range fits into the gaps.
* `splitsForWorkers_iff` : what the workers get.
-/

namespace Svoe

namespace Backtester

open Portion

/-! ### Splitting a time range -/

/-- `int(x)`. -/
def truncate (x : ℚ) : ℤ := if 0 ≤ x then ⌊x⌋ else ⌈x⌉

/-- The loop of `split_time_range_between_ts`, in its first `fuel` rounds. -/
def splitLoop (endTs diffBetween : ℚ) (splitSize : ℤ) :
    ℕ → ℚ → ℚ → Option (List (ClosedInterval ℚ))
  | 0, _, _ => none
  | fuel + 1, curStartTs, curEndTs =>
    if curStartTs < endTs then do
      let interval := if curEndTs ≤ endTs then ⟨curStartTs, curEndTs⟩ else ⟨curStartTs, endTs⟩
      let nextStartTs := curEndTs + diffBetween
      let intervals ← splitLoop endTs diffBetween splitSize fuel nextStartTs (nextStartTs + splitSize)
      return interval :: intervals
    else some []

/-- `split_time_range_between_ts`; `none` if its loop needs more than `fuel` rounds. -/
def splitTimeRangeBetweenTs (fuel : ℕ) (startTs endTs : ℚ) (numSplits : ℕ) (diffBetween : ℚ) :
    Except PyError (Option (List (ClosedInterval ℚ))) := do
  if numSplits = 1 then return some [⟨startTs, endTs⟩]
  let splitSize := truncate (← divide (endTs - startTs) numSplits)
  return splitLoop endTs diffBetween splitSize fuel startTs (startTs + splitSize)

/-- A date string: the microseconds that it parses to. -/
structure DateStr where
  micros : ℤ
  deriving DecidableEq, Repr

/-- `ciso8601.parse_datetime(date).timestamp()`. -/
def DateStr.timestamp (date : DateStr) : ℚ := date.micros / 1000000

/-- `ts_to_str_date`: dates have microseconds. -/
def tsToStrDate (ts : ℚ) : DateStr := ⟨roundHalfEven (ts * 1000000)⟩

/-- `FeaturizerConfig`: its dates, and all the rest that is copied with them. -/
structure DatedConfig (γ : Type) where
  startDate : Option DateStr
  endDate : Option DateStr
  config : γ
  deriving DecidableEq

/-- `ciso8601.parse_datetime`, of a date that may be missing. -/
def parseDatetime : Option DateStr → Except PyError ℚ
  | none => .error .type
  | some date => .ok date.timestamp

variable {γ : Type}

/-- `split_featurizer_config`. -/
def splitFeaturizerConfig (fuel : ℕ) (featurizerConfig : DatedConfig γ) (numSplits : ℕ) :
    Except PyError (Option (List (DatedConfig γ))) := do
  let startTs ← parseDatetime featurizerConfig.startDate
  let endTs ← parseDatetime featurizerConfig.endDate
  let splitRanges ← splitTimeRangeBetweenTs fuel startTs endTs numSplits (1 / 10)
  return splitRanges.map fun ranges => ranges.map fun i =>
    { featurizerConfig with
      startDate := some (tsToStrDate i.lower)
      endDate := some (tsToStrDate i.upper) }

/-- `featurizer_configs[i]`. -/
def configAt (featurizerConfigs : List (DatedConfig γ)) (i : ℕ) : Except PyError (DatedConfig γ) :=
  match featurizerConfigs[i]? with
  | none => .error .index
  | some config => .ok config

/-- The configs that `run_remotely` gives to its workers. -/
def workerConfigs (fuel : ℕ) (featurizerConfig : DatedConfig γ) (numWorkers : ℕ) :
    Except PyError (Option (List (DatedConfig γ))) := do
  match ← splitFeaturizerConfig fuel featurizerConfig numWorkers with
  | none => return none
  | some featurizerConfigs =>
    return some (← (List.range numWorkers).mapM (configAt featurizerConfigs))

/-! ### The parts -/

/-- The part of the range at position `i`. -/
def part (startTs endTs diffBetween : ℚ) (splitSize : ℤ) (i : ℕ) : ClosedInterval ℚ where
  lower := startTs + i * (splitSize + diffBetween)
  upper := min (startTs + i * (splitSize + diffBetween) + splitSize) endTs

variable {startTs endTs diffBetween : ℚ} {splitSize : ℤ} {k n fuel : ℕ}

theorem part_succ (i : ℕ) :
    part startTs endTs diffBetween splitSize (i + 1) =
      part (startTs + (splitSize + diffBetween)) endTs diffBetween splitSize i := by
  simp only [part, Nat.cast_succ]
  congr 1 <;> ring_nf

/-- **The loop** in closed form: it ends after the parts that start before the end. -/
theorem splitLoop_eq (hlt : ∀ i < k, startTs + i * (splitSize + diffBetween) < endTs)
    (hle : endTs ≤ startTs + k * (splitSize + diffBetween)) :
    splitLoop endTs diffBetween splitSize fuel startTs (startTs + splitSize) =
      if k < fuel then some ((List.range k).map (part startTs endTs diffBetween splitSize))
      else none := by
  induction k generalizing startTs fuel with
  | zero =>
    cases fuel with
    | zero => rfl
    | succ fuel =>
      have hend : ¬ startTs < endTs := by simpa using hle
      rw [splitLoop, if_neg hend, if_pos (Nat.succ_pos fuel)]
      rfl
  | succ k ih =>
    cases fuel with
    | zero => rfl
    | succ fuel =>
      have hstart : startTs < endTs := by simpa using hlt 0 (Nat.succ_pos k)
      have hnext : startTs + splitSize + diffBetween = startTs + (splitSize + diffBetween) := by
        ring
      have hrest := @ih (startTs + (splitSize + diffBetween)) fuel
        (fun i hi => by
          have hi := hlt (i + 1) (Nat.succ_lt_succ hi)
          push_cast at hi
          linarith)
        (by push_cast at hle; linarith)
      rw [splitLoop, if_pos hstart, hnext]
      dsimp only
      rw [hrest]
      by_cases hk : k < fuel
      · rw [if_pos hk, if_pos (Nat.succ_lt_succ hk), List.range_succ_eq_map, List.map_cons,
          List.map_map]
        have hfirst : (if startTs + splitSize ≤ endTs then ⟨startTs, startTs + splitSize⟩
            else ⟨startTs, endTs⟩ : ClosedInterval ℚ) =
              part startTs endTs diffBetween splitSize 0 := by
          simp only [part, Nat.cast_zero, zero_mul, add_zero, min_def]
          split_ifs <;> rfl
        have hparts : (List.range k).map (part startTs endTs diffBetween splitSize ∘ Nat.succ) =
            (List.range k).map
              (part (startTs + (splitSize + diffBetween)) endTs diffBetween splitSize) :=
          List.map_congr_left fun i _ => part_succ i
        rw [hparts, ← hfirst]
        rfl
      · rw [if_neg hk, if_neg (fun h => hk (Nat.lt_of_succ_lt_succ h))]
        rfl

/-! ### An exact split -/

/-- `numSplits` closed intervals of positive length from the start to the end of the range, each a
gap of `diffBetween` after the one before. -/
structure ExactSplit (startTs endTs : ℚ) (numSplits : ℕ) (diffBetween : ℚ)
    (intervals : List (ClosedInterval ℚ)) : Prop where
  length : intervals.length = numSplits
  positive : ∀ I ∈ intervals, I.lower < I.upper
  lower : intervals.head?.map ClosedInterval.lower = some startTs
  upper : intervals.getLast?.map ClosedInterval.upper = some endTs
  gaps : intervals.IsChain fun I J => J.lower = I.upper + diffBetween

/-- The parts of a range. -/
def partsOf (startTs endTs diffBetween : ℚ) (splitSize : ℤ) (k : ℕ) : List (ClosedInterval ℚ) :=
  (List.range k).map (part startTs endTs diffBetween splitSize)

/-- Whole parts, a gap after each but the last, and nothing left: the parts cover the range. -/
theorem exactSplit_partsOf_iff (hd : 0 ≤ diffBetween) (hpos : 0 < k)
    (hlt : ∀ i < k, startTs + i * (splitSize + diffBetween) < endTs) :
    ExactSplit startTs endTs n diffBetween (partsOf startTs endTs diffBetween splitSize k) ↔
      k = n ∧ 1 ≤ splitSize ∧
        endTs ≤ startTs + (n - 1) * (splitSize + diffBetween) + splitSize := by
  obtain ⟨k, rfl⟩ := Nat.exists_eq_succ_of_ne_zero hpos.ne'
  have hhead : (partsOf startTs endTs diffBetween splitSize (k + 1)).head? =
      some (part startTs endTs diffBetween splitSize 0) := by
    rw [partsOf, List.range_succ_eq_map]
    rfl
  have hlast : (partsOf startTs endTs diffBetween splitSize (k + 1)).getLast? =
      some (part startTs endTs diffBetween splitSize k) := by
    rw [partsOf, List.range_succ, List.map_append, List.getLast?_append]
    rfl
  constructor
  · rintro ⟨hlength, hpositive, -, hupper, -⟩
    rw [partsOf, List.length_map, List.length_range] at hlength
    refine ⟨hlength, ?_, ?_⟩
    · have hfirst := hpositive _ (List.mem_of_head? hhead)
      have hsize := lt_of_lt_of_le hfirst (min_le_left _ _)
      simp only [part] at hsize
      have hsize' : (0 : ℚ) < splitSize := by linarith
      exact_mod_cast hsize'
    · rw [hlast, Option.map_some, Option.some.injEq] at hupper
      have hend := min_eq_right_iff.1 hupper
      have hk : (k : ℚ) = n - 1 := by
        rw [← hlength]
        push_cast
        ring
      rw [← hk]
      exact hend
  · rintro ⟨rfl, hsize, hend⟩
    have hsize' : (1 : ℚ) ≤ splitSize := by exact_mod_cast hsize
    refine ⟨by simp [partsOf], fun I hI => ?_, ?_, ?_, ?_⟩
    · obtain ⟨i, hi, rfl⟩ := List.mem_map.1 hI
      have hi := hlt i (List.mem_range.1 hi)
      refine lt_min ?_ hi
      simp only [part]
      linarith
    · rw [hhead]
      simp [part]
    · rw [hlast]
      push_cast at hend
      rw [add_sub_cancel_right] at hend
      simp [part, hend]
    · rw [partsOf, List.isChain_map, List.isChain_range_succ]
      intro i hi
      have hi := hlt (i + 1) (Nat.succ_lt_succ hi)
      push_cast at hi
      have hwhole : startTs + i * (splitSize + diffBetween) + splitSize ≤ endTs := by
        linarith
      simp only [part, min_eq_left hwhole]
      push_cast
      ring

/-- What equal parts of whole seconds leave of the range fits into the gaps between them, and the
last part begins before the end. -/
def FitsGaps (startTs endTs : ℚ) (numSplits : ℕ) (diffBetween : ℚ) : Prop :=
  numSplits = 1 ∨
    1 ≤ ⌊(endTs - startTs) / numSplits⌋ ∧
      endTs - startTs - numSplits * ⌊(endTs - startTs) / numSplits⌋ ≤
        (numSplits - 1) * diffBetween ∧
      (numSplits - 1) * (⌊(endTs - startTs) / numSplits⌋ + diffBetween) < endTs - startTs

instance (startTs endTs : ℚ) (numSplits : ℕ) (diffBetween : ℚ) :
    Decidable (FitsGaps startTs endTs numSplits diffBetween) :=
  inferInstanceAs (Decidable (_ ∨ _))

/-- The split of a range into more than one part. -/
theorem splitTimeRangeBetweenTs_eq (hlt : startTs < endTs) (hd : 0 < diffBetween) (hn : 2 ≤ n)
    (hsize : splitSize = ⌊(endTs - startTs) / n⌋) :
    ∃ k : ℕ, 0 < k ∧ (∀ i < k, startTs + i * (splitSize + diffBetween) < endTs) ∧
      endTs ≤ startTs + k * (splitSize + diffBetween) ∧
      ∀ fuel, splitTimeRangeBetweenTs fuel startTs endTs n diffBetween =
        .ok (if k < fuel then some (partsOf startTs endTs diffBetween splitSize k) else none) := by
  have hpos : (0 : ℚ) < n := by
    exact_mod_cast (by omega : 0 < n)
  have hratio : 0 ≤ (endTs - startTs) / n := div_nonneg (sub_nonneg.2 hlt.le) hpos.le
  have hnonneg : (0 : ℚ) ≤ splitSize := by
    rw [hsize]
    exact_mod_cast Int.floor_nonneg.2 hratio
  have hstep : 0 < splitSize + diffBetween := add_pos_of_nonneg_of_pos hnonneg hd
  obtain ⟨k, hk⟩ : ∃ k, k = ⌈(endTs - startTs) / (splitSize + diffBetween)⌉₊ := ⟨_, rfl⟩
  have hstarts : ∀ i < k, startTs + i * (splitSize + diffBetween) < endTs := by
    intro i hi
    have hi := (lt_div_iff₀ hstep).1 (Nat.lt_ceil.1 (hk ▸ hi))
    linarith
  have hend : endTs ≤ startTs + k * (splitSize + diffBetween) := by
    have hceil := (div_le_iff₀ hstep).1 (hk ▸ Nat.le_ceil _)
    linarith
  refine ⟨k, hk ▸ Nat.ceil_pos.2 (div_pos (sub_pos.2 hlt) hstep), hstarts, hend, fun fuel => ?_⟩
  have hdivide : divide (endTs - startTs) n = .ok ((endTs - startTs) / n) := if_neg hpos.ne'
  have hone : n ≠ 1 := by omega
  rw [splitTimeRangeBetweenTs, if_neg hone, hdivide]
  refine congrArg Except.ok ?_
  rw [truncate, if_pos hratio, ← hsize]
  exact splitLoop_eq hstarts hend

/-- **The split of a time range** is exact exactly if what its parts leave fits into the gaps. -/
theorem exists_exactSplit_iff (hlt : startTs < endTs) (hd : 0 < diffBetween) (hn : 1 ≤ n) :
    (∃ fuel intervals,
      splitTimeRangeBetweenTs fuel startTs endTs n diffBetween = .ok (some intervals) ∧
        ExactSplit startTs endTs n diffBetween intervals) ↔ FitsGaps startTs endTs n diffBetween := by
  obtain rfl | hn := hn.eq_or_lt
  · refine iff_of_true ⟨0, [⟨startTs, endTs⟩], rfl, rfl, ?_, rfl, rfl, List.isChain_singleton _⟩
      (.inl rfl)
    intro I hI
    obtain rfl := List.mem_singleton.1 hI
    exact hlt
  · obtain ⟨splitSize, hsplitSize⟩ : ∃ z, z = ⌊(endTs - startTs) / (n : ℚ)⌋ := ⟨_, rfl⟩
    obtain ⟨k, hpos, hparts, hle, hsplit⟩ := splitTimeRangeBetweenTs_eq hlt hd hn hsplitSize
    have hexact := exactSplit_partsOf_iff (n := n) hd.le hpos hparts
    have hexists : (∃ fuel intervals,
        splitTimeRangeBetweenTs fuel startTs endTs n diffBetween = .ok (some intervals) ∧
          ExactSplit startTs endTs n diffBetween intervals) ↔
        ExactSplit startTs endTs n diffBetween (partsOf startTs endTs diffBetween splitSize k) := by
      constructor
      · rintro ⟨fuel, intervals, hintervals, h⟩
        rw [hsplit fuel] at hintervals
        have hsome := Except.ok.inj hintervals
        split_ifs at hsome
        obtain rfl := Option.some.inj hsome
        exact h
      · intro h
        exact ⟨k + 1, _, by rw [hsplit, if_pos (Nat.lt_succ_self k)], h⟩
    rw [hexists, hexact, FitsGaps, or_iff_right hn.ne', ← hsplitSize]
    have hpred : ((n - 1 : ℕ) : ℚ) = n - 1 := Nat.cast_pred (by omega)
    constructor
    · rintro ⟨rfl, hsize, hend⟩
      have hbefore := hparts (k - 1) (by omega)
      rw [hpred] at hbefore
      exact ⟨hsize, by linarith, by linarith⟩
    · rintro ⟨hsize, hgaps, hbefore⟩
      have hsize' : (1 : ℚ) ≤ splitSize := by exact_mod_cast hsize
      refine ⟨le_antisymm (not_lt.1 fun hk => ?_) (not_lt.1 fun hk => ?_), hsize, by linarith⟩
      · have hbeyond := hparts n hk
        linarith
      · -- fewer parts end before the last one begins
        have hk' : (k : ℚ) ≤ n - 1 := by
          rw [← hpred]
          exact_mod_cast Nat.le_sub_one_of_lt hk
        have hmul := mul_le_mul_of_nonneg_right hk' (by linarith : 0 ≤ splitSize + diffBetween)
        linarith

/-! ### The configs of the workers -/

/-- A timestamp with microseconds. -/
def IsMicros (x : ℚ) : Prop := ∃ m : ℤ, x = m / 1000000

theorem timestamp_tsToStrDate {ts : ℚ} (h : IsMicros ts) : (tsToStrDate ts).timestamp = ts := by
  obtain ⟨m, rfl⟩ := h
  rw [tsToStrDate, DateStr.timestamp, div_mul_cancel₀ _ (by norm_num : (1000000 : ℚ) ≠ 0),
    roundHalfEven_intCast]

theorem isMicros_of_parseDatetime {date : Option DateStr} {ts : ℚ}
    (h : parseDatetime date = .ok ts) : IsMicros ts := by
  cases date with
  | none => cases h
  | some date => exact ⟨date.micros, (Except.ok.inj h).symm⟩

/-- The parts of a range between two dates begin and end at microseconds. -/
theorem isMicros_part (hstart : IsMicros startTs) (hend : IsMicros endTs) (i : ℕ) :
    IsMicros (part startTs endTs (1 / 10) splitSize i).lower ∧
      IsMicros (part startTs endTs (1 / 10) splitSize i).upper := by
  obtain ⟨m, rfl⟩ := hstart
  constructor
  · exact ⟨m + i * (splitSize * 1000000 + 100000), by simp only [part]; push_cast; ring⟩
  · simp only [part]
    rcases min_choice ((m : ℚ) / 1000000 + i * (splitSize + 1 / 10) + splitSize) endTs with h | h
    · rw [h]
      exact ⟨m + i * (splitSize * 1000000 + 100000) + splitSize * 1000000, by push_cast; ring⟩
    · rw [h]
      exact hend

theorem isMicros_of_splitTimeRange (hlt : startTs < endTs) (hn : 1 ≤ n) (hstart : IsMicros startTs)
    (hend : IsMicros endTs) {intervals : List (ClosedInterval ℚ)}
    (h : splitTimeRangeBetweenTs fuel startTs endTs n (1 / 10) = .ok (some intervals)) :
    ∀ I ∈ intervals, IsMicros I.lower ∧ IsMicros I.upper := by
  obtain rfl | hn := hn.eq_or_lt
  · obtain rfl := Option.some.inj (Except.ok.inj h)
    simpa using ⟨hstart, hend⟩
  · obtain ⟨k, -, -, -, hsplit⟩ := splitTimeRangeBetweenTs_eq hlt
      (by norm_num : (0 : ℚ) < 1 / 10) hn rfl
    rw [hsplit fuel] at h
    have hsome := Except.ok.inj h
    split_ifs at hsome
    obtain rfl := Option.some.inj hsome
    intro I hI
    obtain ⟨i, -, rfl⟩ := List.mem_map.1 hI
    exact isMicros_part hstart hend i

/-- The dates of a config. -/
def DatedConfig.dates (config : DatedConfig γ) : Option ℚ × Option ℚ :=
  (config.startDate.map DateStr.timestamp, config.endDate.map DateStr.timestamp)

/-- Where there are as many configs as workers, all of them are given away. -/
theorem mapM_configAt (configs : List (DatedConfig γ)) :
    (List.range configs.length).mapM (configAt configs) = .ok configs := by
  refine mapM_eq_ok_iff.2 (List.forall₂_iff_get.2 ⟨by simp, fun i h h' => ?_⟩)
  simp [configAt, List.getElem?_eq_getElem h']

/-- The configs of an exact split go to the workers one by one, with the dates of the parts. -/
theorem exists_workerConfigs (hlt : startTs < endTs) (hn : 1 ≤ n) {config : DatedConfig γ}
    (hstart : parseDatetime config.startDate = .ok startTs)
    (hend : parseDatetime config.endDate = .ok endTs) {intervals : List (ClosedInterval ℚ)}
    (h : splitTimeRangeBetweenTs fuel startTs endTs n (1 / 10) = .ok (some intervals))
    (hlength : intervals.length = n) :
    ∃ configs, splitFeaturizerConfig fuel config n = .ok (some configs) ∧
      workerConfigs fuel config n = .ok (some configs) ∧
      configs.map DatedConfig.dates = intervals.map fun I => (some I.lower, some I.upper) := by
  have hsplit : splitFeaturizerConfig fuel config n = .ok (some (intervals.map fun i =>
      { config with
        startDate := some (tsToStrDate i.lower)
        endDate := some (tsToStrDate i.upper) })) := by
    rw [splitFeaturizerConfig, hstart, hend]
    exact congrArg (Except.map _) h
  refine ⟨_, hsplit, ?_, ?_⟩
  · rw [workerConfigs, hsplit]
    have hconfigs := mapM_configAt (intervals.map fun i =>
      { config with
        startDate := some (tsToStrDate i.lower)
        endDate := some (tsToStrDate i.upper) })
    rw [List.length_map, hlength] at hconfigs
    exact bind_eq_ok_iff.2 ⟨_, rfl, bind_eq_ok_iff.2 ⟨_, hconfigs, rfl⟩⟩
  · have hmicros := isMicros_of_splitTimeRange hlt hn (isMicros_of_parseDatetime hstart)
      (isMicros_of_parseDatetime hend) h
    rw [List.map_map]
    refine List.map_congr_left fun I hI => ?_
    obtain ⟨hlower, hupper⟩ := hmicros I hI
    simp only [Function.comp_apply, DatedConfig.dates, Option.map_some,
      timestamp_tsToStrDate hlower, timestamp_tsToStrDate hupper]

/-- **Splitting for workers**: the range is split exactly, so that each worker gets one of the parts
and all parts are given away, exactly if what equal parts leave of it fits into the gaps. -/
theorem splitsForWorkers_iff (hlt : startTs < endTs) (hn : 1 ≤ n) :
    (∃ fuel intervals, splitTimeRangeBetweenTs fuel startTs endTs n (1 / 10) = .ok (some intervals) ∧
      ExactSplit startTs endTs n (1 / 10) intervals ∧
      ∀ config : DatedConfig γ, parseDatetime config.startDate = .ok startTs →
        parseDatetime config.endDate = .ok endTs →
        ∃ configs, splitFeaturizerConfig fuel config n = .ok (some configs) ∧
          workerConfigs fuel config n = .ok (some configs) ∧
          configs.map DatedConfig.dates = intervals.map fun I => (some I.lower, some I.upper)) ↔
      FitsGaps startTs endTs n (1 / 10) := by
  rw [← exists_exactSplit_iff hlt (by norm_num) hn]
  refine exists_congr fun fuel => exists_congr fun intervals => and_congr_right fun h =>
    and_iff_left_of_imp fun hexact config hstart hend => ?_
  exact exists_workerConfigs hlt hn hstart hend h hexact.length

/-- Four workers for a range of 400 seconds. -/
theorem splitsForWorkers_iff_demo :
    ∃ fuel intervals, splitTimeRangeBetweenTs fuel 0 400 4 (1 / 10) = .ok (some intervals) ∧
      ExactSplit 0 400 4 (1 / 10) intervals := by
  obtain ⟨fuel, intervals, h, hexact, -⟩ :=
    (splitsForWorkers_iff (γ := Unit) (by norm_num : (0 : ℚ) < 400) (by norm_num : 1 ≤ 4)).2
      (by decide +kernel)
  exact ⟨fuel, intervals, h, hexact⟩

/-- With one second more there are five parts for four workers. -/
theorem not_exactSplit_extraPart :
    ¬ ∃ fuel intervals, splitTimeRangeBetweenTs fuel 0 401 4 (1 / 10) = .ok (some intervals) ∧
      ExactSplit 0 401 4 (1 / 10) intervals := by
  rintro ⟨fuel, intervals, h, hexact⟩
  have hsize : (100 : ℤ) = ⌊((401 : ℚ) - 0) / (4 : ℕ)⌋ := by norm_num
  obtain ⟨k, -, -, hle, hsplit⟩ := splitTimeRangeBetweenTs_eq (by norm_num : (0 : ℚ) < 401)
    (by norm_num : (0 : ℚ) < 1 / 10) (by norm_num : 2 ≤ 4) hsize
  rw [hsplit fuel] at h
  have hsome := Except.ok.inj h
  split_ifs at hsome
  obtain rfl := Option.some.inj hsome
  have hlength := hexact.length
  rw [partsOf, List.length_map, List.length_range] at hlength
  subst hlength
  norm_num at hle

end Backtester

end Svoe
