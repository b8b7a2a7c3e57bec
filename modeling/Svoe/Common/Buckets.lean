import Svoe.Common.Time

/-!
# Sampling buckets

`get_sampling_bucket_ts` counts the buckets of a timestamp from the midnight of its own day.  If the
length divides the day, the buckets are the ones between the multiples of the length
(`bucketStart_eq_floorTo`); else the last bucket of a day reaches into the next one, which counts
its own buckets again.

* `getSamplingBucketTs_eq` : the two ends of a bucket, for every length that is accepted.
* `tilesTime_iff` : the buckets tile time if and only if their length divides the day.
-/

namespace Svoe

/-! ### Multiples of a length -/

/-- The last multiple of a length up to a point. -/
def floorTo (b x : ℚ) : ℚ := ⌊x / b⌋ * b

section FloorTo

variable {b x y : ℚ}

theorem floorTo_le (hb : 0 < b) (x : ℚ) : floorTo b x ≤ x :=
  (le_div_iff₀ hb).1 (Int.floor_le (x / b))

theorem lt_floorTo_add (hb : 0 < b) (x : ℚ) : x < floorTo b x + b := by
  have h := (div_lt_iff₀ hb).1 (Int.lt_floor_add_one (x / b))
  unfold floorTo
  linarith

theorem floorTo_mono (hb : 0 < b) (h : x ≤ y) : floorTo b x ≤ floorTo b y := by
  have hfloor : ⌊x / b⌋ ≤ ⌊y / b⌋ := Int.floor_mono ((div_le_div_iff_of_pos_right hb).2 h)
  have hcast : (⌊x / b⌋ : ℚ) ≤ ⌊y / b⌋ := by exact_mod_cast hfloor
  exact mul_le_mul_of_nonneg_right hcast hb.le

theorem floorTo_intCast_mul (hb : 0 < b) (n : ℤ) : floorTo b (n * b) = n * b := by
  rw [floorTo, mul_div_cancel_right₀ _ hb.ne', Int.floor_intCast]

theorem floorTo_floorTo (hb : 0 < b) (x : ℚ) : floorTo b (floorTo b x) = floorTo b x :=
  floorTo_intCast_mul hb ⌊x / b⌋

/-- Two points with the same multiple are less than a length apart. -/
theorem sub_lt_of_floorTo_eq (hb : 0 < b) (h : floorTo b x = floorTo b y) : y - x < b := by
  have hx := floorTo_le hb x
  have hy := lt_floorTo_add hb y
  linarith

/-- Counting from another multiple of the length. -/
theorem floorTo_intCast_mul_add (hb : 0 < b) (n : ℤ) (x : ℚ) :
    n * b + floorTo b (x - n * b) = floorTo b x := by
  have hdiv : (x - n * b) / b = x / b - n := by
    rw [sub_div, mul_div_cancel_right₀ _ hb.ne']
  unfold floorTo
  rw [hdiv, Int.floor_sub_intCast]
  push_cast
  ring

end FloorTo

/-! ### Lengths -/

namespace Window

/-- The lengths that `get_sampling_bucket_ts` accepts: 1 ms to 24 h. -/
def Accepted (bucket : Window) : Prop :=
  1 / 1000 ≤ convertStrToSeconds bucket ∧ convertStrToSeconds bucket ≤ 24 * 60 * 60

/-- A whole number of buckets makes a day. -/
def DividesDay (bucket : Window) : Prop := ∃ n : ℕ, n * convertStrToSeconds bucket = 86400

variable {bucket : Window}

theorem Accepted.pos (h : bucket.Accepted) : 0 < convertStrToSeconds bucket :=
  lt_of_lt_of_le (by norm_num) h.1

theorem ms_le_seconds (u : TimeUnit) : 1 / 1000 ≤ u.seconds := by
  cases u <;> norm_num [TimeUnit.seconds]

theorem DividesDay.accepted (h : bucket.DividesDay) : bucket.Accepted := by
  obtain ⟨n, hn⟩ := h
  have hn0 : n ≠ 0 := by
    rintro rfl
    norm_num at hn
  have hcount : bucket.count ≠ 0 := by
    intro h0
    rw [convertStrToSeconds, h0] at hn
    norm_num at hn
  have hn1 : (1 : ℚ) ≤ n := by exact_mod_cast Nat.one_le_iff_ne_zero.2 hn0
  have hcount1 : (1 : ℚ) ≤ bucket.count := by exact_mod_cast Nat.one_le_iff_ne_zero.2 hcount
  have hunit := ms_le_seconds bucket.unit
  have hnonneg := convertStrToSeconds_nonneg bucket
  constructor
  · calc (1 / 1000 : ℚ) ≤ bucket.unit.seconds := hunit
      _ ≤ bucket.count * bucket.unit.seconds :=
        le_mul_of_one_le_left bucket.unit.seconds_pos.le hcount1
  · calc convertStrToSeconds bucket ≤ n * convertStrToSeconds bucket :=
        le_mul_of_one_le_left hnonneg hn1
      _ ≤ 24 * 60 * 60 := by rw [hn]; norm_num

end Window

/-! ### The start of a bucket -/

/-- The midnight of a timestamp, `start_ts`. -/
def dayStart (timestamp : ℚ) : ℚ := floorTo 86400 timestamp

/-- `bucket_start_ts`. -/
def bucketStart (bucket : Window) (timestamp : ℚ) : ℚ :=
  dayStart timestamp + floorTo (convertStrToSeconds bucket) (timestamp - dayStart timestamp)

variable {bucket : Window}

/-- **What an accepted length gives**: the two ends of the bucket. -/
theorem getSamplingBucketTs_eq (h : bucket.Accepted) (timestamp : ℚ) (b : Bool) :
    getSamplingBucketTs timestamp bucket b =
      .ok (if b then bucketStart bucket timestamp
        else bucketStart bucket timestamp + convertStrToSeconds bucket) := by
  have hguard : ¬ (convertStrToSeconds bucket > 24 * 60 * 60 ∨
      convertStrToSeconds bucket < 1 / 1000) := by
    rintro (hlarge | hsmall)
    · exact hlarge.not_ge h.2
    · exact hsmall.not_ge h.1
  unfold getSamplingBucketTs
  dsimp only
  rw [if_neg hguard]
  rfl

theorem getSamplingBucketTs_start (h : bucket.Accepted) (timestamp : ℚ) :
    getSamplingBucketTs timestamp bucket true = .ok (bucketStart bucket timestamp) :=
  getSamplingBucketTs_eq h timestamp true

theorem getSamplingBucketTs_stop (h : bucket.Accepted) (timestamp : ℚ) :
    getSamplingBucketTs timestamp bucket false =
      .ok (bucketStart bucket timestamp + convertStrToSeconds bucket) :=
  getSamplingBucketTs_eq h timestamp false

/-- Any other length raises. -/
theorem getSamplingBucketTs_of_not_accepted (h : ¬ bucket.Accepted) (timestamp : ℚ) (b : Bool) :
    getSamplingBucketTs timestamp bucket b =
      .error (.value "window_s must be between 1ms and 24h") := by
  have hguard : convertStrToSeconds bucket > 24 * 60 * 60 ∨
      convertStrToSeconds bucket < 1 / 1000 := by
    by_contra hguard
    rw [not_or, not_lt, not_lt] at hguard
    exact h ⟨hguard.2, hguard.1⟩
  unfold getSamplingBucketTs
  dsimp only
  rw [if_pos hguard]

/-- **Buckets of a length that divides the day** start at the multiples of the length. -/
theorem bucketStart_eq_floorTo (h : bucket.DividesDay) (timestamp : ℚ) :
    bucketStart bucket timestamp = floorTo (convertStrToSeconds bucket) timestamp := by
  have hpos := h.accepted.pos
  obtain ⟨n, hn⟩ := h
  -- midnight is a multiple of the length
  have hday : dayStart timestamp =
      ((⌊timestamp / 86400⌋ * n : ℤ) : ℚ) * convertStrToSeconds bucket := by
    rw [dayStart, floorTo]
    push_cast
    rw [mul_assoc, hn]
  rw [bucketStart, hday, floorTo_intCast_mul_add hpos]

theorem bucketStart_mono (h : bucket.DividesDay) {x y : ℚ} (hle : x ≤ y) :
    bucketStart bucket x ≤ bucketStart bucket y := by
  rw [bucketStart_eq_floorTo h, bucketStart_eq_floorTo h]
  exact floorTo_mono h.accepted.pos hle

/-! ### Tilings -/

/-- The buckets of a length tile time. -/
structure TilesTime (bucket : Window) : Prop where
  contains : ∀ ts, ∃ start stop, getSamplingBucketTs ts bucket true = .ok start ∧
    getSamplingBucketTs ts bucket false = .ok stop ∧ start ≤ ts ∧ ts < stop
  idempotent : ∀ ts start, getSamplingBucketTs ts bucket true = .ok start →
    getSamplingBucketTs start bucket true = .ok start
  mono : ∀ ts ts' start start', ts ≤ ts' → getSamplingBucketTs ts bucket true = .ok start →
    getSamplingBucketTs ts' bucket true = .ok start' → start ≤ start'
  next : ∀ ts stop, getSamplingBucketTs ts bucket false = .ok stop →
    getSamplingBucketTs stop bucket true = .ok stop

/-- A length that divides the day. -/
theorem Window.DividesDay.tilesTime (h : bucket.DividesDay) : TilesTime bucket := by
  have hpos := h.accepted.pos
  have hstart : ∀ ts, getSamplingBucketTs ts bucket true =
      .ok (floorTo (convertStrToSeconds bucket) ts) := fun ts => by
    rw [getSamplingBucketTs_start h.accepted, bucketStart_eq_floorTo h]
  have hstop : ∀ ts, getSamplingBucketTs ts bucket false =
      .ok (floorTo (convertStrToSeconds bucket) ts + convertStrToSeconds bucket) := fun ts => by
    rw [getSamplingBucketTs_stop h.accepted, bucketStart_eq_floorTo h]
  refine ⟨?_, ?_, ?_, ?_⟩
  · intro ts
    exact ⟨_, _, hstart ts, hstop ts, floorTo_le hpos ts, lt_floorTo_add hpos ts⟩
  · intro ts start hts
    rw [hstart] at hts ⊢
    rw [← Except.ok.inj hts, floorTo_floorTo hpos]
  · intro ts ts' start start' hle hts hts'
    rw [hstart] at hts hts'
    rw [← Except.ok.inj hts, ← Except.ok.inj hts']
    exact floorTo_mono hpos hle
  · intro ts stop hts
    rw [hstop] at hts
    have hmul : stop = ((⌊ts / convertStrToSeconds bucket⌋ + 1 : ℤ) : ℚ) *
        convertStrToSeconds bucket := by
      rw [← Except.ok.inj hts, floorTo]
      push_cast
      ring
    rw [hstart, hmul, floorTo_intCast_mul hpos]

/-- A timestamp of the first day lies in a bucket that is counted from zero. -/
theorem dayStart_of_first {ts : ℚ} (h0 : 0 ≤ ts) (h : ts < 86400) : dayStart ts = 0 := by
  have hfloor : ⌊ts / 86400⌋ = 0 := by
    rw [Int.floor_eq_zero_iff, Set.mem_Ico]
    constructor
    · positivity
    · rw [div_lt_one (by norm_num)]
      exact h
  rw [dayStart, floorTo, hfloor]
  norm_num

theorem dayStart_of_second {ts : ℚ} (h0 : 86400 ≤ ts) (h : ts < 172800) : dayStart ts = 86400 := by
  have hfloor : ⌊ts / 86400⌋ = 1 := by
    rw [Int.floor_eq_iff]
    constructor
    · rw [le_div_iff₀ (by norm_num)]
      norm_num
      exact h0
    · rw [div_lt_iff₀ (by norm_num)]
      norm_num
      exact h
  rw [dayStart, floorTo, hfloor]
  norm_num

/-- **Buckets tile time if and only if their length divides the day**: else the last bucket of a
day ends in the first bucket of the next one. -/
theorem tilesTime_iff (h : bucket.Accepted) : TilesTime bucket ↔ bucket.DividesDay := by
  refine ⟨fun htiles => ?_, Window.DividesDay.tilesTime⟩
  have hpos := h.pos
  have hday : convertStrToSeconds bucket ≤ 86400 := by
    have := h.2
    norm_num at this
    exact this
  set b := convertStrToSeconds bucket with hb
  -- the last bucket that starts on the first day or at its end
  set k : ℤ := ⌊86400 / b⌋ with hk
  have hk0 : 0 ≤ k := Int.floor_nonneg.2 (by positivity)
  have hlow : k * b ≤ 86400 := floorTo_le hpos 86400
  have hup : 86400 < k * b + b := lt_floorTo_add hpos 86400
  rcases hlow.eq_or_lt with heq | hlt
  · refine ⟨k.toNat, ?_⟩
    rw [← heq, ← hb]
    congr 1
    exact_mod_cast Int.toNat_of_nonneg hk0
  · have hkb0 : (0 : ℚ) ≤ k * b := mul_nonneg (by exact_mod_cast hk0) hpos.le
    have hlast : getSamplingBucketTs (k * b) bucket false = .ok (k * b + b) := by
      rw [getSamplingBucketTs_stop h, bucketStart, dayStart_of_first hkb0 hlt, sub_zero, zero_add,
        ← hb, floorTo_intCast_mul hpos]
    -- what the next day makes of the end of this bucket
    have hnext := htiles.next _ _ hlast
    have hsmall : floorTo b (k * b + b - 86400) = 0 := by
      have hfloor : ⌊(k * b + b - 86400) / b⌋ = 0 := by
        rw [Int.floor_eq_zero_iff, Set.mem_Ico]
        constructor
        · exact div_nonneg (by linarith) hpos.le
        · rw [div_lt_one hpos]
          linarith
      rw [floorTo, hfloor]
      norm_num
    rw [getSamplingBucketTs_start h, bucketStart, dayStart_of_second hup.le (by linarith), ← hb,
      hsmall] at hnext
    have hend : k * b + b = 86400 := by
      have := Except.ok.inj hnext
      linarith
    refine ⟨(k + 1).toNat, ?_⟩
    have hcast : ((k + 1).toNat : ℚ) = k + 1 := by
      exact_mod_cast Int.toNat_of_nonneg (by omega : 0 ≤ k + 1)
    rw [hcast, ← hb, ← hend]
    ring

theorem tilesTime_iff_oneMinute :
    (⟨1, .m⟩ : Window).Accepted ∧
      (TilesTime ⟨1, .m⟩ ↔ (⟨1, .m⟩ : Window).DividesDay) := by
  have h : (⟨1, .m⟩ : Window).Accepted := by
    norm_num [Window.Accepted, convertStrToSeconds, TimeUnit.seconds]
  exact ⟨h, tilesTime_iff h⟩

/-- Buckets of seven hours: the fourth of a day ends at four in the morning, in the first bucket of
the next day. -/
theorem not_tilesTime_sevenHours :
    getSamplingBucketTs 75600 ⟨7, .h⟩ false = .ok 100800 ∧
      getSamplingBucketTs 100800 ⟨7, .h⟩ true = .ok 86400 ∧ ¬ TilesTime ⟨7, .h⟩ := by
  have hlast : getSamplingBucketTs 75600 ⟨7, .h⟩ false = .ok 100800 := by decide +kernel
  have hnext : getSamplingBucketTs 100800 ⟨7, .h⟩ true = .ok 86400 := by decide +kernel
  refine ⟨hlast, hnext, fun htiles => ?_⟩
  have hsame := (htiles.next _ _ hlast).symm.trans hnext
  norm_num at hsame

end Svoe
