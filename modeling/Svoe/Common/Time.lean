import Mathlib.Algebra.Order.Floor.Ring
import Mathlib.Algebra.Order.Field.Rat
import Mathlib.Data.Rat.Floor
import Mathlib.Tactic.Linarith
import Mathlib.Tactic.Positivity.Basic
import Mathlib.Tactic.FieldSimp
import Mathlib.Tactic.Ring
import Svoe.Common.Frame

/-!
# Durations and rounded timestamps

Timestamps are rational numbers of seconds.  A duration string such as `'500ms'` or `'1m'` is the
`Window` it parses to, and `convertStrToSeconds` is its length.

`roundFloat` is `round(f, 3)` on exact numbers: the nearest multiple of a millisecond, ties to the
even one.  It is monotone (`roundFloat_mono`) and keeps the multiples of a millisecond
(`roundFloat_of_ms`).  Python rounds the double and returns the double next to the result, so that a
time half-way between two milliseconds may go to the other one; where that decides the result, the
function that rounds is a parameter instead (`Svoe.Blocks.Rounding`).
-/

namespace Svoe

/-! ### Durations -/

/-- The unit at the end of a duration string. -/
inductive TimeUnit where
  | ms
  | s
  | m
  | h
  | d
  | w
  deriving DecidableEq, Repr

/-- `seconds_per_unit`, and the special case of milliseconds. -/
def TimeUnit.seconds : TimeUnit → ℚ
  | .ms => 1 / 1000
  | .s => 1
  | .m => 60
  | .h => 3600
  | .d => 86400
  | .w => 604800

/-- A duration string: a number and its unit. -/
structure Window where
  count : ℕ
  unit : TimeUnit
  deriving DecidableEq, Repr

/-- `convert_str_to_seconds`. -/
def convertStrToSeconds (w : Window) : ℚ := w.count * w.unit.seconds

theorem TimeUnit.seconds_pos (u : TimeUnit) : 0 < u.seconds := by
  cases u <;> norm_num [TimeUnit.seconds]

theorem convertStrToSeconds_nonneg (w : Window) : 0 ≤ convertStrToSeconds w :=
  mul_nonneg (Nat.cast_nonneg _) w.unit.seconds_pos.le

/-! ### Dates -/

/-- Year, month and day of the month of a day, counted from 1970-01-01.  Years are taken to begin in
March, so that a leap day is the last day of its year, and come in eras of 400. -/
def civilDate (day : ℤ) : ℤ × ℤ × ℤ :=
  let era := (day + 719468) / 146097
  let dayOfEra := (day + 719468) % 146097
  let yearOfEra := (dayOfEra - dayOfEra / 1460 + dayOfEra / 36524 - dayOfEra / 146096) / 365
  let dayOfYear := dayOfEra - (365 * yearOfEra + yearOfEra / 4 - yearOfEra / 100)
  let monthFromMarch := (5 * dayOfYear + 2) / 153
  let month := if monthFromMarch < 10 then monthFromMarch + 3 else monthFromMarch - 9
  (yearOfEra + era * 400 + (if month ≤ 2 then 1 else 0), month,
    dayOfYear - (153 * monthFromMarch + 2) / 5 + 1)

/-- `%m` and `%d`. -/
def twoDigits (n : ℤ) : String := if n < 10 then "0" ++ toString n else toString n

/-- `strftime('%Y-%m-%d')` of a day. -/
def dayStr (day : ℤ) : String :=
  let (year, month, dayOfMonth) := civilDate day
  toString year ++ "-" ++ twoDigits month ++ "-" ++ twoDigits dayOfMonth

example : dayStr 19416 = "2023-02-28" ∧ dayStr 19782 = "2024-02-29" ∧
    dayStr (-1) = "1969-12-31" := by
  decide +kernel

/-! ### Sampling buckets -/

/-- `get_sampling_bucket_ts`, with UTC as the local time zone: the buckets of a day start at
midnight. -/
def getSamplingBucketTs (timestamp : ℚ) (bucket : Window) (returnBucketStart : Bool) :
    Except PyError ℚ :=
  let bucketS := convertStrToSeconds bucket
  if bucketS > 24 * 60 * 60 ∨ bucketS < 1 / 1000 then
    .error (.value "window_s must be between 1ms and 24h")
  else
    let startTs : ℚ := ⌊timestamp / 86400⌋ * 86400
    let numBuckets : ℤ := ⌊(timestamp - startTs) / bucketS⌋
    let bucketStartTs := startTs + numBuckets * bucketS
    .ok (if returnBucketStart then bucketStartTs else bucketStartTs + bucketS)

/-! ### Rounding -/

/-- The nearest integer, ties to the even one. -/
def roundHalfEven (x : ℚ) : ℤ :=
  if x - ⌊x⌋ < 1 / 2 then ⌊x⌋
  else if 1 / 2 < x - ⌊x⌋ then ⌊x⌋ + 1
  else if Even ⌊x⌋ then ⌊x⌋
  else ⌊x⌋ + 1

/-- `round_float`: three decimals, of exact numbers. -/
def roundFloat (f : ℚ) : ℚ := roundHalfEven (f * 1000) / 1000

theorem floor_le_roundHalfEven (x : ℚ) : ⌊x⌋ ≤ roundHalfEven x := by
  unfold roundHalfEven
  split_ifs <;> omega

theorem roundHalfEven_le_floor_add_one (x : ℚ) : roundHalfEven x ≤ ⌊x⌋ + 1 := by
  unfold roundHalfEven
  split_ifs <;> omega

theorem roundHalfEven_intCast (n : ℤ) : roundHalfEven n = n := by
  norm_num [roundHalfEven]

theorem roundHalfEven_mono {x y : ℚ} (h : x ≤ y) : roundHalfEven x ≤ roundHalfEven y := by
  rcases eq_or_lt_of_le (Int.floor_mono h) with hf | hf
  · -- the same integer part: compare the fractions
    unfold roundHalfEven
    rw [← hf]
    split_ifs <;> first | omega | linarith
  · calc roundHalfEven x ≤ ⌊x⌋ + 1 := roundHalfEven_le_floor_add_one x
      _ ≤ ⌊y⌋ := hf
      _ ≤ roundHalfEven y := floor_le_roundHalfEven y

theorem roundFloat_mono {x y : ℚ} (h : x ≤ y) : roundFloat x ≤ roundFloat y := by
  have : roundHalfEven (x * 1000) ≤ roundHalfEven (y * 1000) :=
    roundHalfEven_mono (by linarith)
  unfold roundFloat
  have hc : (roundHalfEven (x * 1000) : ℚ) ≤ roundHalfEven (y * 1000) := by exact_mod_cast this
  linarith

/-- Multiples of a millisecond are kept. -/
theorem roundFloat_of_ms (n : ℤ) : roundFloat (n / 1000) = n / 1000 := by
  unfold roundFloat
  rw [div_mul_cancel₀ _ (by norm_num : (1000 : ℚ) ≠ 0), roundHalfEven_intCast]

/-- A multiple of a millisecond. -/
def IsMs (x : ℚ) : Prop := ∃ n : ℤ, x = n / 1000

theorem isMs_roundFloat (x : ℚ) : IsMs (roundFloat x) := ⟨_, rfl⟩

theorem IsMs.roundFloat_eq {x : ℚ} (h : IsMs x) : roundFloat x = x := by
  obtain ⟨n, rfl⟩ := h
  exact roundFloat_of_ms n

theorem IsMs.add {x y : ℚ} (hx : IsMs x) (hy : IsMs y) : IsMs (x + y) := by
  obtain ⟨m, rfl⟩ := hx
  obtain ⟨n, rfl⟩ := hy
  exact ⟨m + n, by push_cast; ring⟩

theorem IsMs.intCast_mul {x : ℚ} (h : IsMs x) (k : ℤ) : IsMs (k * x) := by
  obtain ⟨n, rfl⟩ := h
  exact ⟨k * n, by push_cast; ring⟩

theorem IsMs.natCast_mul {x : ℚ} (h : IsMs x) (k : ℕ) : IsMs (k * x) := by
  exact_mod_cast h.intCast_mul k

theorem isMs_convertStrToSeconds (w : Window) : IsMs (convertStrToSeconds w) := by
  have hunit : IsMs w.unit.seconds := by
    cases w.unit
    · exact ⟨1, by norm_num [TimeUnit.seconds]⟩
    · exact ⟨1000, by norm_num [TimeUnit.seconds]⟩
    · exact ⟨60000, by norm_num [TimeUnit.seconds]⟩
    · exact ⟨3600000, by norm_num [TimeUnit.seconds]⟩
    · exact ⟨86400000, by norm_num [TimeUnit.seconds]⟩
    · exact ⟨604800000, by norm_num [TimeUnit.seconds]⟩
  exact hunit.natCast_mul w.count

/-- Buckets start at multiples of a millisecond. -/
theorem isMs_getSamplingBucketTs {timestamp res : ℚ} {bucket : Window} {b : Bool}
    (h : getSamplingBucketTs timestamp bucket b = .ok res) : IsMs res := by
  have hday : IsMs ((⌊timestamp / 86400⌋ : ℚ) * 86400) :=
    IsMs.intCast_mul ⟨86400000, by norm_num⟩ _
  have hbucket := isMs_convertStrToSeconds bucket
  unfold getSamplingBucketTs at h
  dsimp only at h
  split_ifs at h <;> rw [← Except.ok.inj h]
  · exact hday.add (hbucket.intCast_mul _)
  · exact (hday.add (hbucket.intCast_mul _)).add hbucket

/-- Rounding moves by less than half a second, so it keeps the order of what is further apart. -/
theorem roundFloat_lt_roundFloat {x y : ℚ} (h : x + 1 < y) : roundFloat x < roundFloat y := by
  have hx : (roundHalfEven (x * 1000) : ℚ) ≤ ⌊x * 1000⌋ + 1 := by
    exact_mod_cast roundHalfEven_le_floor_add_one (x * 1000)
  have hy : (⌊y * 1000⌋ : ℚ) ≤ roundHalfEven (y * 1000) := by
    exact_mod_cast floor_le_roundHalfEven (y * 1000)
  have hx' := Int.floor_le (x * 1000)
  have hy' := Int.lt_floor_add_one (y * 1000)
  unfold roundFloat
  linarith

/-- Rounding moves by at most a millisecond. -/
theorem abs_roundFloat_sub_le (x : ℚ) : |roundFloat x - x| ≤ 1 / 1000 := by
  have hlow : (⌊x * 1000⌋ : ℚ) ≤ roundHalfEven (x * 1000) := by
    exact_mod_cast floor_le_roundHalfEven (x * 1000)
  have hup : (roundHalfEven (x * 1000) : ℚ) ≤ ⌊x * 1000⌋ + 1 := by
    exact_mod_cast roundHalfEven_le_floor_add_one (x * 1000)
  have hfloor := Int.floor_le (x * 1000)
  have hlt := Int.lt_floor_add_one (x * 1000)
  unfold roundFloat
  rw [abs_le]
  constructor <;> linarith

@[simp] theorem roundFloat_roundFloat (x : ℚ) : roundFloat (roundFloat x) = roundFloat x :=
  roundFloat_of_ms _

end Svoe
