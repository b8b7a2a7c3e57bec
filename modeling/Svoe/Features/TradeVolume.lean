import Svoe.Features.SharedQueue
import Mathlib.Algebra.Order.BigOperators.Group.List
import Mathlib.Data.List.Indexes
import Mathlib.Data.List.TakeWhile

/-!
# Three implementations of the trade volume imbalance

`TradeVolumeImbFD` keeps the sums of the trades in its window: it evicts old trades, then adds the
new one.  `calc_tvi` of the Rust extension sums up its window for every trade, `calc_tvi_fast` keeps
the sums, but adds the new trade first.

* `sums_update`, `sums_fast` : the sums that are kept are those of the window.
* `tvi_agree` : all three give the imbalance of the trades in the window.
-/

namespace Svoe

/-! ### The Rust extension -/

/-- `while e.1 - deque.get(0).unwrap().1 > window_s { deque.pop_front() }`: what is popped, and what
is left.  An empty deque makes `unwrap` panic. -/
def popExpired (windowS : ℚ) (event : TradeEvent) :
    List TradeEvent → Option (List TradeEvent × List TradeEvent)
  | [] => none
  | e :: deque =>
    if event.timestamp - e.timestamp > windowS then
      (popExpired windowS event deque).map fun p => (e :: p.1, p.2)
    else some ([], e :: deque)

/-- `buys_vol` and `sells_vol`. -/
structure Volumes where
  buysVol : ℚ := 0
  sellsVol : ℚ := 0

namespace Volumes

/-- `+= e.2 * e.3`, for the side of the trade. -/
def add (vols : Volumes) (e : TradeEvent) : Volumes :=
  match e.side with
  | .buy => { vols with buysVol := vols.buysVol + e.amount * e.price }
  | .sell => { vols with sellsVol := vols.sellsVol + e.amount * e.price }

/-- `-= e.2 * e.3`, for the side of the trade. -/
def sub (vols : Volumes) (e : TradeEvent) : Volumes :=
  match e.side with
  | .buy => { vols with buysVol := vols.buysVol - e.amount * e.price }
  | .sell => { vols with sellsVol := vols.sellsVol - e.amount * e.price }

def tvi (vols : Volumes) : ℚ :=
  2 * (vols.buysVol - vols.sellsVol) / (vols.buysVol + vols.sellsVol)

end Volumes

/-- The loop of `calc_tvi`. -/
def calcTviLoop (windowS : ℚ) (deque : List TradeEvent) :
    List TradeEvent → Option (List (ℚ × ℚ))
  | [] => some []
  | e :: trades =>
    match popExpired windowS e (deque ++ [e]) with
    | none => none
    | some (_, deque) =>
      let vols : Volumes := deque.foldl Volumes.add {}
      (calcTviLoop windowS deque trades).map fun res => (e.timestamp, vols.tvi) :: res

/-- `calc_tvi`; `none` is a panic. -/
def calcTvi (trades : List TradeEvent) (windowS : ℚ) : Option (List (ℚ × ℚ)) :=
  calcTviLoop windowS [] trades

/-- The loop of `calc_tvi_fast`. -/
def calcTviFastLoop (windowS : ℚ) (deque : List TradeEvent) (vols : Volumes) :
    List TradeEvent → Option (List (ℚ × ℚ))
  | [] => some []
  | e :: trades =>
    match popExpired windowS e (deque ++ [e]) with
    | none => none
    | some (popped, deque) =>
      let vols := popped.foldl Volumes.sub (vols.add e)
      (calcTviFastLoop windowS deque vols trades).map fun res => (e.timestamp, vols.tvi) :: res

/-- `calc_tvi_fast`; `none` is a panic. -/
def calcTviFast (trades : List TradeEvent) (windowS : ℚ) : Option (List (ℚ × ℚ)) :=
  calcTviFastLoop windowS [] {} trades

/-! ### The feature -/

/-- `TradeVolumeImbFD._update_state` over a list of trades, with `'raw'` sampling. -/
def tviUpdates (windowS : ℚ) (queue : List TradeEvent) (state : TviState) :
    List TradeEvent → Except PyError (List (Option Tvi))
  | [] => .ok []
  | e :: trades =>
    match updateTvi none windowS queue state e with
    | .error err => .error err
    | .ok (queue, state, out) => (tviUpdates windowS queue state trades).map fun outs => out :: outs

/-! ### The imbalance of a window -/

/-- The total `price * amount` of the trades of one side. -/
def sideVolume (side : TradeSide) (trades : List TradeEvent) : ℚ :=
  ((trades.filter fun e => e.side = side).map fun e => e.price * e.amount).sum

/-- The trades so far that are not older than the window. -/
def windowTrades (windowS : ℚ) (past : List TradeEvent) (e : TradeEvent) : List TradeEvent :=
  (past ++ [e]).filter fun x => e.timestamp - windowS ≤ x.timestamp

/-- `2 (B - S) / (B + S)`. -/
def imbalance (trades : List TradeEvent) : ℚ :=
  2 * (sideVolume .buy trades - sideVolume .sell trades) /
    (sideVolume .buy trades + sideVolume .sell trades)

/-- The imbalance of the window at every trade. -/
def windowImbalances (windowS : ℚ) (trades : List TradeEvent) : List ℚ :=
  trades.mapIdx fun i e => imbalance (windowTrades windowS (trades.take i) e)

theorem sideVolume_append (side : TradeSide) (l l' : List TradeEvent) :
    sideVolume side (l ++ l') = sideVolume side l + sideVolume side l' := by
  simp [sideVolume]

/-- What a trade adds to the volume of a side. -/
def tradeVolume (side : TradeSide) (e : TradeEvent) : ℚ :=
  if e.side = side then e.price * e.amount else 0

theorem sideVolume_cons (side : TradeSide) (e : TradeEvent) (l : List TradeEvent) :
    sideVolume side (e :: l) = tradeVolume side e + sideVolume side l := by
  by_cases h : e.side = side <;> simp [sideVolume, tradeVolume, h]

@[simp] theorem sideVolume_nil (side : TradeSide) : sideVolume side [] = 0 := rfl

section Positive

variable {l : List TradeEvent} (hpos : ∀ e ∈ l, 0 < e.price ∧ 0 < e.amount)

include hpos

theorem sideVolume_nonneg (side : TradeSide) : 0 ≤ sideVolume side l := by
  refine List.sum_nonneg fun x hx => ?_
  obtain ⟨e, he, rfl⟩ := List.mem_map.1 hx
  obtain ⟨hprice, hamount⟩ := hpos e (List.mem_of_mem_filter he)
  exact (mul_pos hprice hamount).le

/-- A window with a trade has a volume. -/
theorem sideVolume_pos (hne : l ≠ []) : 0 < sideVolume .buy l + sideVolume .sell l := by
  obtain ⟨e, l, rfl⟩ := List.exists_cons_of_ne_nil hne
  obtain ⟨hprice, hamount⟩ := hpos e List.mem_cons_self
  have hrest := fun side => sideVolume_nonneg (fun e he => hpos e (List.mem_cons_of_mem _ he)) side
  have hbuy := hrest .buy
  have hsell := hrest .sell
  have he := mul_pos hprice hamount
  rw [sideVolume_cons, sideVolume_cons, tradeVolume, tradeVolume]
  cases e.side <;> simp <;> linarith

theorem imbalance_bounds (hne : l ≠ []) : -2 ≤ imbalance l ∧ imbalance l ≤ 2 := by
  have hsum := sideVolume_pos hpos hne
  have hbuy := sideVolume_nonneg hpos .buy
  have hsell := sideVolume_nonneg hpos .sell
  rw [imbalance, le_div_iff₀ hsum, div_le_iff₀ hsum]
  constructor <;> linarith

end Positive

/-! ### The window of a queue -/

section Window

variable {windowS : ℚ} {past queue trades : List TradeEvent} {e : TradeEvent}

/-- The queue holds what is left of the trades so far: later windows drop from both the same. -/
def QueueOf (windowS : ℚ) (past queue trades : List TradeEvent) : Prop :=
  ∀ e ∈ trades, ∀ l, (queue ++ l).dropWhile (tviExpired windowS e) =
    (past ++ l).dropWhile (tviExpired windowS e)

theorem tviExpired_eq_false_iff {x : TradeEvent} :
    tviExpired windowS e x = false ↔ e.timestamp - windowS ≤ x.timestamp := by
  rw [tviExpired, decide_eq_false_iff_not, not_lt]
  constructor <;> intro h <;> linarith

/-- On sorted trades, popping the expired ones leaves the window. -/
theorem dropWhile_eq_windowTrades
    (hsorted : (past ++ [e]).Pairwise fun x y => x.timestamp ≤ y.timestamp) :
    (past ++ [e]).dropWhile (tviExpired windowS e) = windowTrades windowS past e := by
  rw [windowTrades, Series.dropWhile_eq_filter]
  · refine List.filter_congr fun x _ => ?_
    rw [tviExpired, ← decide_not, decide_eq_decide, not_lt]
    constructor <;> intro h <;> linarith
  · refine hsorted.imp fun {x y} hxy hx => ?_
    rw [tviExpired_eq_false_iff] at hx ⊢
    exact hx.trans hxy

/-- Expired trades are popped as long as there are others. -/
theorem popExpired_eq (hne : queue.dropWhile (tviExpired windowS e) ≠ []) :
    popExpired windowS e queue = some (queue.takeWhile (tviExpired windowS e),
      queue.dropWhile (tviExpired windowS e)) := by
  induction queue with
  | nil => exact absurd rfl hne
  | cons x queue ih =>
    rw [popExpired]
    by_cases hx : tviExpired windowS e x = true
    · rw [List.dropWhile_cons_of_pos hx] at hne ⊢
      rw [if_pos (of_decide_eq_true hx), ih hne, List.takeWhile_cons_of_pos hx]
      rfl
    · rw [List.dropWhile_cons_of_neg hx, List.takeWhile_cons_of_neg hx,
        if_neg fun hlt => hx (decide_eq_true hlt)]

/-- The new trade is not expired. -/
theorem mem_dropWhile_tviExpired (hw : 0 ≤ windowS) (queue : List TradeEvent) :
    (queue ++ [e]).dropWhile (tviExpired windowS e) ≠ [] := by
  rw [Ne, List.dropWhile_eq_nil_iff]
  intro hall
  have he := of_decide_eq_true (hall e (by simp))
  linarith

/-- **A step of the window**: what is left of the queue is the window, and the next windows are cut
from it. -/
theorem QueueOf.step (h : QueueOf windowS past queue (e :: trades))
    (hsorted : (past ++ e :: trades).Pairwise fun x y => x.timestamp ≤ y.timestamp) :
    (queue ++ [e]).dropWhile (tviExpired windowS e) = windowTrades windowS past e ∧
      QueueOf windowS (past ++ [e]) (windowTrades windowS past e) trades := by
  rw [List.append_cons] at hsorted
  have hwindow : (past ++ [e]).dropWhile (tviExpired windowS e) = windowTrades windowS past e :=
    dropWhile_eq_windowTrades (hsorted.sublist (List.sublist_append_left _ trades))
  refine ⟨(h e List.mem_cons_self [e]).trans hwindow, fun e' he' l => ?_⟩
  rw [← hwindow]
  refine Series.dropWhile_append_of_imp (fun x hx => ?_) _ l
  have hle := (List.pairwise_append.1 hsorted).2.2 e (by simp) e' he'
  exact decide_eq_true ((of_decide_eq_true hx).trans_le (by linarith))

end Window

/-! ### The sums of a queue -/

section Sums

variable (side : TradeSide) (e : TradeEvent)

theorem buysVol_add (vols : Volumes) :
    (vols.add e).buysVol = vols.buysVol + tradeVolume .buy e := by
  unfold Volumes.add tradeVolume
  cases e.side <;> simp [mul_comm]

theorem sellsVol_add (vols : Volumes) :
    (vols.add e).sellsVol = vols.sellsVol + tradeVolume .sell e := by
  unfold Volumes.add tradeVolume
  cases e.side <;> simp [mul_comm]

theorem buysVol_sub (vols : Volumes) :
    (vols.sub e).buysVol = vols.buysVol - tradeVolume .buy e := by
  unfold Volumes.sub tradeVolume
  cases e.side <;> simp [mul_comm]

theorem sellsVol_sub (vols : Volumes) :
    (vols.sub e).sellsVol = vols.sellsVol - tradeVolume .sell e := by
  unfold Volumes.sub tradeVolume
  cases e.side <;> simp [mul_comm]

theorem buyVol_addVol (state : TviState) (vol : ℚ) :
    (state.addVol side vol).buyVol = state.buyVol + if side = .buy then vol else 0 := by
  cases side <;> simp [TviState.addVol]

theorem sellVol_addVol (state : TviState) (vol : ℚ) :
    (state.addVol side vol).sellVol = state.sellVol + if side = .sell then vol else 0 := by
  cases side <;> simp [TviState.addVol]

theorem lastSamplingBucketTs_addVol (state : TviState) (vol : ℚ) :
    (state.addVol side vol).lastSamplingBucketTs = state.lastSamplingBucketTs := by
  cases side <;> rfl

theorem neg_tradeVolume :
    (if e.side = side then -(e.price * e.amount) else 0) = -tradeVolume side e := by
  unfold tradeVolume
  split_ifs
  · rfl
  · exact neg_zero.symm

end Sums

theorem volumes_foldl_add (l : List TradeEvent) (vols : Volumes) :
    (l.foldl Volumes.add vols).buysVol = vols.buysVol + sideVolume .buy l ∧
      (l.foldl Volumes.add vols).sellsVol = vols.sellsVol + sideVolume .sell l := by
  induction l generalizing vols with
  | nil => simp
  | cons e l ih =>
    obtain ⟨hbuy, hsell⟩ := ih (vols.add e)
    rw [List.foldl_cons, hbuy, hsell, sideVolume_cons, sideVolume_cons, buysVol_add, sellsVol_add]
    constructor <;> ring

theorem volumes_foldl_sub (l : List TradeEvent) (vols : Volumes) :
    (l.foldl Volumes.sub vols).buysVol = vols.buysVol - sideVolume .buy l ∧
      (l.foldl Volumes.sub vols).sellsVol = vols.sellsVol - sideVolume .sell l := by
  induction l generalizing vols with
  | nil => simp
  | cons e l ih =>
    obtain ⟨hbuy, hsell⟩ := ih (vols.sub e)
    rw [List.foldl_cons, hbuy, hsell, sideVolume_cons, sideVolume_cons, buysVol_sub, sellsVol_sub]
    constructor <;> ring

theorem update_sums (popped : List TradeEvent) (e : TradeEvent) (state : TviState) :
    (state.update popped e).buyVol =
        state.buyVol - sideVolume .buy popped + tradeVolume .buy e ∧
      (state.update popped e).sellVol =
        state.sellVol - sideVolume .sell popped + tradeVolume .sell e ∧
          (state.update popped e).lastSamplingBucketTs = state.lastSamplingBucketTs := by
  rw [TviState.update, buyVol_addVol, sellVol_addVol, lastSamplingBucketTs_addVol]
  induction popped generalizing state with
  | nil => simp [tradeVolume]
  | cons x popped ih =>
    obtain ⟨hbuy, hsell, hlast⟩ := ih (state.addVol x.side (-(x.price * x.amount)))
    rw [List.foldl_cons, hbuy, hsell, hlast, sideVolume_cons, sideVolume_cons, buyVol_addVol,
      sellVol_addVol, lastSamplingBucketTs_addVol, neg_tradeVolume, neg_tradeVolume]
    exact ⟨by ring, by ring, rfl⟩

/-- What a queue loses and gains. -/
theorem sideVolume_takeWhile (side : TradeSide) (p : TradeEvent → Bool) (queue : List TradeEvent)
    (e : TradeEvent) : sideVolume side ((queue ++ [e]).takeWhile p) +
      sideVolume side ((queue ++ [e]).dropWhile p) =
        sideVolume side queue + tradeVolume side e := by
  rw [← sideVolume_append, List.takeWhile_append_dropWhile, sideVolume_append, sideVolume_cons,
    sideVolume_nil, add_zero]

/-- **The sums of the feature**: it evicts first. -/
theorem sums_update {state : TviState} {queue : List TradeEvent} (e : TradeEvent)
    (p : TradeEvent → Bool) (hbuy : state.buyVol = sideVolume .buy queue)
    (hsell : state.sellVol = sideVolume .sell queue) :
    let state' := state.update ((queue ++ [e]).takeWhile p) e
    state'.buyVol = sideVolume .buy ((queue ++ [e]).dropWhile p) ∧
      state'.sellVol = sideVolume .sell ((queue ++ [e]).dropWhile p) ∧
        state'.lastSamplingBucketTs = state.lastSamplingBucketTs := by
  obtain ⟨hbuy', hsell', hlast⟩ := update_sums ((queue ++ [e]).takeWhile p) e state
  have hb := sideVolume_takeWhile .buy p queue e
  have hs := sideVolume_takeWhile .sell p queue e
  exact ⟨by linarith, by linarith, hlast⟩

/-- **The sums of `calc_tvi_fast`**: it adds first. -/
theorem sums_fast {vols : Volumes} {queue : List TradeEvent} (e : TradeEvent)
    (p : TradeEvent → Bool) (hbuy : vols.buysVol = sideVolume .buy queue)
    (hsell : vols.sellsVol = sideVolume .sell queue) :
    let vols' := ((queue ++ [e]).takeWhile p).foldl Volumes.sub (vols.add e)
    vols'.buysVol = sideVolume .buy ((queue ++ [e]).dropWhile p) ∧
      vols'.sellsVol = sideVolume .sell ((queue ++ [e]).dropWhile p) := by
  obtain ⟨hbuy', hsell'⟩ := volumes_foldl_sub ((queue ++ [e]).takeWhile p) (vols.add e)
  rw [buysVol_add] at hbuy'
  rw [sellsVol_add] at hsell'
  have hb := sideVolume_takeWhile .buy p queue e
  have hs := sideVolume_takeWhile .sell p queue e
  exact ⟨by linarith, by linarith⟩

/-! ### All trades -/

section Agree

variable {windowS : ℚ} {past queue trades : List TradeEvent}

/-- The imbalances of the windows behind `past`. -/
def windowImbalancesFrom (windowS : ℚ) (past trades : List TradeEvent) : List ℚ :=
  trades.mapIdx fun i e => imbalance (windowTrades windowS (past ++ trades.take i) e)

theorem windowImbalancesFrom_cons (windowS : ℚ) (past : List TradeEvent) (e : TradeEvent)
    (trades : List TradeEvent) : windowImbalancesFrom windowS past (e :: trades) =
      imbalance (windowTrades windowS past e) ::
        windowImbalancesFrom windowS (past ++ [e]) trades := by
  simp [windowImbalancesFrom, List.mapIdx_cons]

theorem tvi_eq_imbalance {vols : Volumes} {l : List TradeEvent}
    (hbuy : vols.buysVol = sideVolume .buy l) (hsell : vols.sellsVol = sideVolume .sell l) :
    vols.tvi = imbalance l := by
  rw [Volumes.tvi, imbalance, hbuy, hsell]

theorem calcTviLoop_eq (hw : 0 ≤ windowS)
    (hsorted : (past ++ trades).Pairwise fun x y => x.timestamp ≤ y.timestamp)
    (hqueue : QueueOf windowS past queue trades) :
    calcTviLoop windowS queue trades =
      some ((trades.map TradeEvent.timestamp).zip (windowImbalancesFrom windowS past trades)) := by
  induction trades generalizing past queue with
  | nil => rfl
  | cons e trades ih =>
    obtain ⟨hwindow, hnext⟩ := hqueue.step hsorted
    rw [calcTviLoop, popExpired_eq (mem_dropWhile_tviExpired hw queue), hwindow]
    dsimp only
    obtain ⟨hbuy, hsell⟩ := volumes_foldl_add (windowTrades windowS past e) {}
    rw [zero_add] at hbuy hsell
    rw [ih (by rwa [← List.append_cons]) hnext, tvi_eq_imbalance hbuy hsell,
      windowImbalancesFrom_cons]
    rfl

theorem calcTviFastLoop_eq (hw : 0 ≤ windowS)
    (hsorted : (past ++ trades).Pairwise fun x y => x.timestamp ≤ y.timestamp)
    (hqueue : QueueOf windowS past queue trades) {vols : Volumes}
    (hbuy : vols.buysVol = sideVolume .buy queue)
    (hsell : vols.sellsVol = sideVolume .sell queue) :
    calcTviFastLoop windowS queue vols trades =
      some ((trades.map TradeEvent.timestamp).zip (windowImbalancesFrom windowS past trades)) := by
  induction trades generalizing past queue vols with
  | nil => rfl
  | cons e trades ih =>
    obtain ⟨hwindow, hnext⟩ := hqueue.step hsorted
    obtain ⟨hbuy', hsell'⟩ := sums_fast e (tviExpired windowS e) hbuy hsell
    rw [hwindow] at hbuy' hsell'
    rw [calcTviFastLoop, popExpired_eq (mem_dropWhile_tviExpired hw queue), hwindow]
    dsimp only
    rw [ih (by rwa [← List.append_cons]) hnext hbuy' hsell', tvi_eq_imbalance hbuy' hsell',
      windowImbalancesFrom_cons]
    rfl

/-- The new trade is in the window. -/
theorem mem_windowTrades (hw : 0 ≤ windowS) (past : List TradeEvent) (e : TradeEvent) :
    e ∈ windowTrades windowS past e :=
  List.mem_filter.2 ⟨by simp, decide_eq_true (by linarith)⟩

theorem tviUpdates_eq (hw : 0 ≤ windowS)
    (hsorted : (past ++ trades).Pairwise fun x y => x.timestamp ≤ y.timestamp)
    (hpos : ∀ e ∈ past ++ trades, 0 < e.price ∧ 0 < e.amount)
    (hqueue : QueueOf windowS past queue trades) {state : TviState}
    (hbuy : state.buyVol = sideVolume .buy queue)
    (hsell : state.sellVol = sideVolume .sell queue) :
    tviUpdates windowS queue state trades =
      .ok ((trades.zip (windowImbalancesFrom windowS past trades)).map fun p =>
        some ⟨p.1.timestamp, p.1.receiptTimestamp, p.2, state.lastSamplingBucketTs⟩) := by
  induction trades generalizing past queue state with
  | nil => rfl
  | cons e trades ih =>
    obtain ⟨hwindow, hnext⟩ := hqueue.step hsorted
    obtain ⟨hbuy', hsell', hlast⟩ := sums_update e (tviExpired windowS e) hbuy hsell
    rw [hwindow] at hbuy' hsell'
    have hvolume := sideVolume_pos (l := windowTrades windowS past e)
      (fun x hx => hpos x (by
        rw [List.append_cons]
        exact List.mem_append_left _ (List.mem_of_mem_filter hx)))
      (List.ne_nil_of_mem (mem_windowTrades hw past e))
    rw [tviUpdates, updateTvi_eq, tviEmit, hwindow, hbuy', hsell', if_neg hvolume.ne']
    simp only [Except.map]
    rw [ih (by rwa [← List.append_cons]) (by rwa [← List.append_cons]) hnext hbuy' hsell',
      windowImbalancesFrom_cons, hlast]
    rfl

/-- **The three implementations agree**: for sorted trades with positive prices and amounts they
give the imbalance of the window at every trade, whose denominator is positive, and which lies
between -2 and 2. -/
theorem tvi_agree {trades : List TradeEvent} {windowS : ℚ}
    (hsorted : trades.Pairwise fun x y => x.timestamp ≤ y.timestamp)
    (hpos : ∀ e ∈ trades, 0 < e.price ∧ 0 < e.amount) (hw : 0 ≤ windowS) :
    tviUpdates windowS [] {} trades =
        .ok ((trades.zip (windowImbalances windowS trades)).map fun p =>
          some ⟨p.1.timestamp, p.1.receiptTimestamp, p.2, -1⟩) ∧
      calcTvi trades windowS =
        some ((trades.map TradeEvent.timestamp).zip (windowImbalances windowS trades)) ∧
      calcTviFast trades windowS =
        some ((trades.map TradeEvent.timestamp).zip (windowImbalances windowS trades)) ∧
      ∀ i e, trades[i]? = some e →
        let window := windowTrades windowS (trades.take i) e
        (windowImbalances windowS trades)[i]? = some (imbalance window) ∧
          0 < sideVolume .buy window + sideVolume .sell window ∧
            -2 ≤ imbalance window ∧ imbalance window ≤ 2 := by
  have hqueue : QueueOf windowS [] [] trades := fun _ _ _ => rfl
  have hfrom : windowImbalances windowS trades = windowImbalancesFrom windowS [] trades := rfl
  have hall : ([] ++ trades).Pairwise fun x y : TradeEvent => x.timestamp ≤ y.timestamp := hsorted
  rw [hfrom]
  refine ⟨tviUpdates_eq hw hall hpos hqueue rfl rfl, calcTviLoop_eq hw hall hqueue,
    calcTviFastLoop_eq hw hall hqueue rfl rfl, fun i e he => ?_⟩
  have hmem : ∀ x ∈ windowTrades windowS (trades.take i) e, 0 < x.price ∧ 0 < x.amount := by
    intro x hx
    rcases List.mem_append.1 (List.mem_of_mem_filter hx) with hx | hx
    · exact hpos x (List.mem_of_mem_take hx)
    · exact List.mem_singleton.1 hx ▸ hpos e (List.mem_of_getElem? he)
  have hne := List.ne_nil_of_mem (mem_windowTrades hw (trades.take i) e)
  refine ⟨?_, sideVolume_pos hmem hne, imbalance_bounds hmem hne⟩
  simp [windowImbalancesFrom, he]

end Agree

/-- A purchase and two sales, the last one behind the window of the others. -/
def threeTrades : List TradeEvent :=
  [⟨0, 0, .buy, 1, 2, none, none⟩, ⟨1, 1, .sell, 1, 1, none, none⟩,
    ⟨5, 5, .sell, 3, 1, none, none⟩]

theorem tvi_agree_threeTrades :
    tviUpdates 2 [] {} threeTrades =
        .ok [some ⟨0, 0, 2, -1⟩, some ⟨1, 1, 2 / 3, -1⟩, some ⟨5, 5, -2, -1⟩] ∧
      calcTvi threeTrades 2 = some [(0, 2), (1, 2 / 3), (5, -2)] ∧
        calcTviFast threeTrades 2 = some [(0, 2), (1, 2 / 3), (5, -2)] := by
  have hsorted : threeTrades.Pairwise fun x y => x.timestamp ≤ y.timestamp := by decide +kernel
  have hpos : ∀ e ∈ threeTrades, 0 < e.price ∧ 0 < e.amount := by decide +kernel
  have hw : (0 : ℚ) ≤ 2 := by decide +kernel
  obtain ⟨hupdates, hslow, hfast, -⟩ := tvi_agree hsorted hpos hw
  refine ⟨hupdates.trans ?_, hslow.trans ?_, hfast.trans ?_⟩ <;> decide +kernel

end Svoe
