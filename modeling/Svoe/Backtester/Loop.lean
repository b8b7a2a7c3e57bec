import Svoe.Backtester.Update

/-!
# The backtest loop

`Loop.run` takes the events of the generator one by one: it sets the clock, asks the strategy for
orders, stages them and updates the simulator.  After the last event it stops the inference loop,
also if the strategy has none, which raises.

* `finish_eq` : a round samples the mid prices as the generator does.
* `exists_processEvent_iff`, `processes_of_ok` : when a round returns, and what it has done.
* `LoopInv.run`, `LoopInv.exists_run_iff` : the same of the whole loop.
* `loopContract_iff` : `run` meets its contract if and only if there is an inference loop and every
  event can be processed.
-/

namespace Svoe

namespace Backtester

open Raising

variable {σ R : Type}

/-! ### Strategies -/

/-- `InferenceConfig`. -/
structure InferenceConfig where
  deploymentName : String
  modelUri : String
  predictorClassName : String
  numReplicas : ℤ
  deriving DecidableEq, Repr

/-- The call makes an order. -/
def Call.Makes : Call → Prop
  | .makeOrder _ _ _ _ _ => True
  | .stageForExecution _ | .updateState | .next _ _ => False

/-- A strategy with states in `σ`, for inference results in `R`.  `onDataUdf` gets the event and
the latest inference result; it makes orders, and returns the ids of orders that were made. -/
structure Strategy (σ R : Type) where
  inferenceConfig : Option InferenceConfig
  onDataUdf : σ → DataStreamEvent → Option (R × ℚ) → Sim (Option (List ℕ) × σ)
  makes : ∀ state event inference s, ∃ calls : List Call, (∀ call ∈ calls, call.Makes) ∧
    Transition.run step s calls = some (onDataUdf state event inference s).2
  returnsMade : ∀ state event inference s ids state',
    (onDataUdf state event inference s).1 = .ok (some ids, state') →
      ∀ id ∈ ids, id < (onDataUdf state event inference s).2.madeOrders.length

/-- What a run of the loop raises. -/
inductive LoopError where
  | raised (e : PyError)
  /-- `RuntimeError(msg)`. -/
  | runtime (msg : String)
  /-- `AttributeError`. -/
  | attribute
  deriving DecidableEq, Repr

/-- What serves the predictions: libraries and a thread beside the loop. -/
structure Serving (R : Type) where
  /-- `Checkpoint.from_uri`, `serve.start` and `PredictorDeployment.options`. -/
  prepare : InferenceConfig → Except PyError Unit
  /-- `deployment.deploy`. -/
  deploy : InferenceConfig → Except PyError Unit
  /-- There is a result within five seconds. -/
  answers : InferenceConfig → Bool
  /-- The results collected until the end. -/
  inferenceResults : List (R × ℚ)

/-- What `next` of the generator returns, and the latest inference result at that time. -/
structure Tick (R : Type) where
  event : Option DataStreamEvent
  inference : Option (R × ℚ)

/-- `PortfolioBalanceRecord`; a wallet has a free and a locked balance. -/
structure PortfolioBalanceRecord where
  timestamp : ℚ
  total : ℚ
  perWallet : List (AssetInstrument × ℚ × ℚ)
  deriving DecidableEq, Repr

/-- `LoopRunResult`. -/
structure LoopRunResult (R : Type) where
  executedTrades : List (Instrument × List Trade)
  portfolioBalances : List PortfolioBalanceRecord
  sampledPrices : List (Instrument × List (ℚ × ℚ))
  inferenceResults : List (R × ℚ)
  deriving DecidableEq

/-- The simulator, the strategy and the generator of a loop. -/
structure LoopState (σ : Type) where
  backtest : Backtest
  strategy : σ
  latestDataEvent : Option DataStreamEvent
  sampledMidPrices : List (Instrument × List (ℚ × ℚ))

/-- A part of a run. -/
abbrev LoopM (σ : Type) := Raising (LoopState σ) LoopError

/-! ### The loop -/

/-- A part of a run that concerns the simulator. -/
def onBacktest {α : Type} (x : Sim α) : LoopM σ α := fun s =>
  match x s.backtest with
  | (.ok a, t) => (.ok a, { s with backtest := t })
  | (.error e, t) => (.error (.raised e), { s with backtest := t })

/-- The samples of the mid prices at a time. -/
def samplePrices (sampled : List (Instrument × List (ℚ × ℚ))) (timestamp : ℚ)
    (midPrices : List (Instrument × ℚ)) : List (Instrument × List (ℚ × ℚ)) :=
  midPrices.foldl (fun sampled p =>
    dictSet sampled p.1 ((dictGet sampled p.1).getD [] ++ [(timestamp, p.2)])) sampled

/-- `next` of the generator where it returns an event: its mid prices are sampled. -/
def nextEvent (event : DataStreamEvent) : LoopM σ Unit := do
  let midPrices ← lift ((Generator.getMidPricesFromEvent event).mapError .raised)
  modify fun s =>
    { s with
      backtest := { s.backtest with midPrices := midPrices }
      sampledMidPrices := samplePrices s.sampledMidPrices event.timestamp midPrices }

/-- The end of the generator's `next` samples the mid prices in the same way. -/
theorem finish_eq (g : Generator) (event : DataStreamEvent) (hout : g.curOutEvent = some event)
    (hsampled : g.lastSampledTs = none) :
    g.finish.map (fun p => (p.1.sampledMidPrices, p.2)) =
      (Generator.getMidPricesFromEvent event).map fun midPrices =>
        (samplePrices g.sampledMidPrices event.timestamp midPrices, some event) := by
  simp only [Generator.finish, hout, Generator.sampleMidPrices, hsampled]
  cases Generator.getMidPricesFromEvent event <;> rfl

/-- `clock.set`. -/
def clockSet (time : ℚ) : LoopM σ Unit :=
  modify fun s => { s with backtest := { s.backtest with now := time } }

/-- `on_data`. -/
def onData (strategy : Strategy σ R) (event : DataStreamEvent) (inference : Option (R × ℚ)) :
    LoopM σ (Option (List ℕ)) := do
  modify fun s => { s with latestDataEvent := some event }
  let s ← get
  let (orders, state) ← onBacktest (strategy.onDataUdf s.strategy event inference)
  modify fun s => { s with strategy := state }
  return orders

/-- The orders of an event are staged, if there are any. -/
def stageOrders (orders : Option (List ℕ)) : LoopM σ Unit :=
  match orders with
  | none => return ()
  | some ids => if 0 < ids.length then onBacktest (stageForExecution ids) else return ()

/-- One round of the loop. -/
def processEvent (strategy : Strategy σ R) (tick : Tick R) : LoopM σ Unit :=
  match tick.event with
  | none => return ()
  | some event => do
    nextEvent event
    clockSet event.timestamp
    let orders ← onData strategy event tick.inference
    stageOrders orders
    onBacktest updateState

/-- The loop of `run`. -/
def processEvents (strategy : Strategy σ R) : List (Tick R) → LoopM σ Unit
  | [] => return ()
  | tick :: ticks => do
    processEvent strategy tick
    processEvents strategy ticks

/-- `predictor_class`. -/
def predictorClass (config : InferenceConfig) : Except PyError Unit :=
  if config.predictorClassName = "XGBoostPredictor" then .ok ()
  else .error (.value ("Unsupported predictor class: " ++ config.predictorClassName))

/-- `start_serve_predictor_deployment`. -/
def startServePredictorDeployment (serving : Serving R) (config : InferenceConfig) :
    Except PyError Unit := do
  serving.prepare config
  predictorClass config
  serving.deploy config

/-- What `run` does before the loop. -/
def startInference (strategy : Strategy σ R) (serving : Serving R) : LoopM σ Unit :=
  match strategy.inferenceConfig with
  | none => return ()
  | some config => do
    lift ((startServePredictorDeployment serving config).mapError .raised)
    if serving.answers config then return ()
    else lift (.error (.runtime "No inference results after 5s"))

/-- `inference_loop.stop`.  A strategy without an inference config has no inference loop. -/
def stopInference (strategy : Strategy σ R) : LoopM σ Unit :=
  match strategy.inferenceConfig with
  | none => lift (.error .attribute)
  | some _ => return ()

/-- A record of `get_portfolio_balances`. -/
def balanceRecord (s : Snapshot) : PortfolioBalanceRecord where
  timestamp := s.timestamp
  total := s.totalBalance
  perWallet := s.portfolio.wallets.foldl (fun perWallet wallet =>
    dictSet perWallet wallet.assetInstrument (wallet.balance, wallet.lockedBalance)) []

/-- The result that `run` puts together. -/
def loopRunResult (strategy : Strategy σ R) (serving : Serving R) (s : LoopState σ) :
    LoopRunResult R where
  executedTrades := s.backtest.executedTrades
  portfolioBalances := s.backtest.stateSnapshots.map balanceRecord
  sampledPrices := s.sampledMidPrices
  inferenceResults := if strategy.inferenceConfig.isSome then serving.inferenceResults else []

/-- `Loop.run`, for a generator that returns the events of the ticks.  Nothing but `Loop.stop` ends
the loop before the last one. -/
def runLoop (strategy : Strategy σ R) (serving : Serving R) (ticks : List (Tick R)) :
    LoopM σ (LoopRunResult R) := do
  startInference strategy serving
  processEvents strategy ticks
  stopInference strategy
  let s ← get
  return loopRunResult strategy serving s

/-! ### What a run should do -/

/-- What happens at an event: its mid prices, the orders that the strategy returns, the trades, and
the portfolio after each change of state. -/
structure Round where
  event : DataStreamEvent
  midPrices : List (Instrument × ℚ)
  orders : List ℕ
  trades : List Trade
  changes : List Portfolio

/-- What the strategy sees at an event. -/
def seen (s : LoopState σ) (event : DataStreamEvent) (midPrices : List (Instrument × ℚ)) :
    Backtest :=
  { s.backtest with midPrices := midPrices, now := event.timestamp }

/-- The event is processed: the strategy sees its time and its mid prices, the orders it returns are
staged, the staged orders that are due at these prices are executed at them, and the portfolio is
recorded after each of the two, if it changed anything. -/
structure Processes (strategy : Strategy σ R) (s : LoopState σ) (tick : Tick R) (r : Round)
    (s' : LoopState σ) : Prop where
  event : tick.event = some r.event
  midPrices : Generator.getMidPricesFromEvent r.event = .ok r.midPrices
  onData : ∃ orders made, strategy.onDataUdf s.strategy r.event tick.inference
      (seen s r.event r.midPrices) = (.ok (orders, s'.strategy), made) ∧
    r.orders = orders.getD [] ∧
    r.changes = (if r.orders = [] then [] else [made.portfolio]) ++
      if r.trades = [] then [] else [s'.backtest.portfolio]
  latestDataEvent : s'.latestDataEvent = some r.event
  clock : s'.backtest.now = r.event.timestamp
  staged : s'.backtest.orders = s.backtest.orders ++ r.orders
  priced : ∀ trade ∈ r.trades, trade.orderId ∈ s'.backtest.orders ∧
    trade.timestamp = r.event.timestamp ∧ dictGet r.midPrices trade.instrument = some trade.price
  settled : ∀ id ∈ s'.backtest.orders, dueAt s'.backtest id = false
  fills : s'.backtest.fills = s.backtest.fills ++ r.trades
  executedTrades : s'.backtest.executedTrades = recordTrades s.backtest.executedTrades r.trades
  snapshots : ∃ snapshots, s'.backtest.stateSnapshots = s.backtest.stateSnapshots ++ snapshots ∧
    List.Forall₂ (fun p snapshot => IsSnapshot p r.midPrices r.event.timestamp snapshot)
      r.changes snapshots
  sampled : s'.sampledMidPrices =
    samplePrices s.sampledMidPrices r.event.timestamp r.midPrices

/-- The events are processed one by one. -/
inductive ProcessesAll (strategy : Strategy σ R) :
    LoopState σ → List (Tick R) → List Round → LoopState σ → Prop
  | nil (s : LoopState σ) : ProcessesAll strategy s [] [] s
  | skip {s s' : LoopState σ} {tick : Tick R} {ticks : List (Tick R)} {rounds : List Round}
      (h : tick.event = none) (hrest : ProcessesAll strategy s ticks rounds s') :
      ProcessesAll strategy s (tick :: ticks) rounds s'
  | round {s t s' : LoopState σ} {tick : Tick R} {ticks : List (Tick R)} {r : Round}
      {rounds : List Round} (h : Processes strategy s tick r t)
      (hrest : ProcessesAll strategy t ticks rounds s') :
      ProcessesAll strategy s (tick :: ticks) (r :: rounds) s'

/-- **The contract of a run**: all events are processed, and the result has all trades, a balance
record for each change of state, and the sampled prices. -/
structure LoopContract (strategy : Strategy σ R) (s₀ : LoopState σ) (ticks : List (Tick R))
    (result : LoopRunResult R) (s : LoopState σ) (rounds : List Round) : Prop where
  processes : ProcessesAll strategy s₀ ticks rounds s
  events : rounds.map Round.event = ticks.filterMap Tick.event
  recorded : Recorded s.backtest
  executedTrades : result.executedTrades = recordTrades [] (rounds.flatMap Round.trades)
  portfolioBalances : List.Forall₂ (fun (c : Round × Portfolio) record =>
      ∃ snapshot, IsSnapshot c.2 c.1.midPrices c.1.event.timestamp snapshot ∧
        record = balanceRecord snapshot)
    (rounds.flatMap fun r => r.changes.map fun p => (r, p)) result.portfolioBalances
  sampledPrices : result.sampledPrices = rounds.foldl (fun sampled r =>
    samplePrices sampled r.event.timestamp r.midPrices) []

/-- A loop before its run. -/
def LoopState.init (portfolio : Portfolio) (now : ℚ) (state : σ) : LoopState σ where
  backtest := initial portfolio now []
  strategy := state
  latestDataEvent := none
  sampledMidPrices := []

/-! ### When it does -/

/-- A round that does not raise, as a step. -/
def loopStep (strategy : Strategy σ R) (s : LoopState σ) (tick : Tick R) : Option (LoopState σ) :=
  match processEvent strategy tick s with
  | (.ok _, s') => some s'
  | (.error _, _) => none

/-- The event has its mid prices, `on_data` does not raise, no staged order is due that can not be
filled, and the total balance can be computed if orders are returned or a staged one is due. -/
def Processable (strategy : Strategy σ R) (s : LoopState σ) (tick : Tick R) : Prop :=
  ∀ event, tick.event = some event → ∃ midPrices orders state made,
    Generator.getMidPricesFromEvent event = .ok midPrices ∧
    strategy.onDataUdf s.strategy event tick.inference (seen s event midPrices) =
      (.ok (orders, state), made) ∧
    (orders.getD [] ≠ [] → Balanced made.portfolio midPrices) ∧
    Updatable { made with orders := made.orders ++ orders.getD [] }

/-- There is an inference config, its deployment starts, and it answers. -/
def StartsInference (strategy : Strategy σ R) (serving : Serving R) : Prop :=
  ∃ config, strategy.inferenceConfig = some config ∧
    startServePredictorDeployment serving config = .ok () ∧ serving.answers config

variable {strategy : Strategy σ R} {s s' t : LoopState σ} {tick : Tick R} {ticks : List (Tick R)}
  {event : DataStreamEvent} {rounds : List Round} {r : Round} {serving : Serving R}

theorem onBacktest_eq_ok_iff {α : Type} {x : Sim α} {a : α} :
    onBacktest x s = (.ok a, s') ↔
      ∃ u, x s.backtest = (.ok a, u) ∧ s' = { s with backtest := u } := by
  rw [onBacktest]
  rcases x s.backtest with ⟨e | b, u⟩
  · exact iff_of_false (by rintro ⟨⟩) (by rintro ⟨_, ⟨⟩, -⟩)
  · constructor
    · rintro ⟨⟩
      exact ⟨u, rfl, rfl⟩
    · rintro ⟨_, ⟨⟩, rfl⟩
      rfl

/-- The backtest after orders were staged and snapshots recorded. -/
def Backtest.staged (s : Backtest) (orders : List ℕ) (snapshots : List Snapshot) : Backtest :=
  { s with orders := s.orders ++ orders, stateSnapshots := s.stateSnapshots ++ snapshots }

theorem OrdersInv.staged {u : Backtest} (h : OrdersInv u) (orders : List ℕ)
    (snapshots : List Snapshot) : OrdersInv (u.staged orders snapshots) :=
  h.congr rfl rfl

/-- Staging the orders of an event returns if the total balance can be computed. -/
theorem stageOrders_eq_ok_iff {orders : Option (List ℕ)} : stageOrders orders s = (.ok (), s') ↔
    ∃ snapshots, List.Forall₂ (fun p snapshot =>
        IsSnapshot p s.backtest.midPrices s.backtest.now snapshot)
        (if orders.getD [] = [] then [] else [s.backtest.portfolio]) snapshots ∧
      s' = { s with backtest := s.backtest.staged (orders.getD []) snapshots } := by
  have hnone : (return () : LoopM σ Unit) s = (.ok (), s') ↔
      ∃ snapshots, List.Forall₂ (fun p snapshot =>
          IsSnapshot p s.backtest.midPrices s.backtest.now snapshot) ([] : List Portfolio) snapshots ∧
        s' = { s with backtest := s.backtest.staged [] snapshots } := by
    simpa [pure_apply, Backtest.staged] using eq_comm
  rcases orders with _ | _ | ⟨id, ids⟩
  · exact hnone
  · exact hnone
  · have hstage : stageOrders (some (id :: ids)) s =
        onBacktest (stageForExecution (id :: ids)) s := rfl
    rw [hstage, onBacktest_eq_ok_iff]
    simp only [stageForExecution_eq (List.cons_ne_nil id ids), recordStateSnapshot_eq_ok_iff,
      Option.getD_some, if_neg (List.cons_ne_nil id ids)]
    constructor
    · rintro ⟨_, ⟨snapshot, hsnapshot, rfl⟩, rfl⟩
      exact ⟨[snapshot], .cons hsnapshot .nil, rfl⟩
    · rintro ⟨_, hsnapshots, rfl⟩
      obtain ⟨snapshot, _, hsnapshot, hnil, rfl⟩ := List.forall₂_cons_left_iff.1 hsnapshots
      obtain rfl := List.forall₂_nil_left_iff.1 hnil
      exact ⟨_, ⟨snapshot, hsnapshot, rfl⟩, rfl⟩

theorem nextEvent_eq_ok_iff : nextEvent event s = (.ok (), s') ↔
    ∃ midPrices, Generator.getMidPricesFromEvent event = .ok midPrices ∧
      s' = { s with
        backtest := { s.backtest with midPrices := midPrices }
        sampledMidPrices := samplePrices s.sampledMidPrices event.timestamp midPrices } := by
  rw [nextEvent]
  cases Generator.getMidPricesFromEvent event with
  | error e => exact iff_of_false (by rintro ⟨⟩) (by rintro ⟨_, ⟨⟩, -⟩)
  | ok midPrices =>
    constructor
    · rintro ⟨⟩
      exact ⟨midPrices, rfl, rfl⟩
    · rintro ⟨_, ⟨⟩, rfl⟩
      rfl

theorem onData_eq_ok_iff {inference : Option (R × ℚ)} {orders : Option (List ℕ)} :
    onData strategy event inference s = (.ok orders, s') ↔ ∃ state made,
      strategy.onDataUdf s.strategy event inference s.backtest = (.ok (orders, state), made) ∧
        s' = ⟨made, state, some event, s.sampledMidPrices⟩ := by
  rw [onData, modify_bind, get_bind, Raising.bind_eq_ok_iff]
  simp only [onBacktest_eq_ok_iff]
  constructor
  · rintro ⟨⟨orders', state⟩, _, ⟨made, hdata, rfl⟩, ⟨⟩⟩
    exact ⟨state, made, hdata, rfl⟩
  · rintro ⟨state, made, hdata, rfl⟩
    exact ⟨(orders, state), _, ⟨made, hdata, rfl⟩, rfl⟩

/-- **One round of the loop**: it returns if each of its parts does. -/
theorem processEvent_eq_ok_iff (hevent : tick.event = some event) :
    processEvent strategy tick s = (.ok (), s') ↔ ∃ midPrices orders state made t,
      Generator.getMidPricesFromEvent event = .ok midPrices ∧
      strategy.onDataUdf s.strategy event tick.inference (seen s event midPrices) =
        (.ok (orders, state), made) ∧
      stageOrders orders ⟨made, state, some event,
        samplePrices s.sampledMidPrices event.timestamp midPrices⟩ = (.ok (), t) ∧
      onBacktest updateState t = (.ok (), s') := by
  rw [processEvent, hevent, Raising.bind_eq_ok_iff]
  constructor
  · rintro ⟨_, _, hnext, h⟩
    obtain ⟨midPrices, hmid, rfl⟩ := nextEvent_eq_ok_iff.1 hnext
    rw [clockSet, modify_bind] at h
    obtain ⟨orders, _, hdata, h⟩ := Raising.bind_eq_ok_iff.1 h
    obtain ⟨state, made, hudf, rfl⟩ := onData_eq_ok_iff.1 hdata
    obtain ⟨_, t, hstage, hupdate⟩ := Raising.bind_eq_ok_iff.1 h
    exact ⟨midPrices, orders, state, made, t, hmid, hudf, hstage, hupdate⟩
  · rintro ⟨midPrices, orders, state, made, t, hmid, hdata, hstage, hupdate⟩
    refine ⟨(), _, nextEvent_eq_ok_iff.2 ⟨midPrices, hmid, rfl⟩, ?_⟩
    rw [clockSet, modify_bind]
    refine Raising.bind_eq_ok_iff.2 ⟨orders, _, onData_eq_ok_iff.2 ⟨state, made, hdata, rfl⟩, ?_⟩
    exact Raising.bind_eq_ok_iff.2 ⟨(), t, hstage, hupdate⟩

/-! ### What a strategy can do -/

/-- Orders are made, and nothing else happens. -/
structure MakesOrders (s t : Backtest) : Prop where
  frame : t = { s with portfolio := t.portfolio, madeOrders := t.madeOrders }
  inv : OrdersInv s → OrdersInv t

theorem MakesOrders.recorded {u v : Backtest} (h : MakesOrders u v) (hinv : OrdersInv u)
    (hrecorded : Recorded u) : Recorded v := by
  have htrades : v.executedTrades = u.executedTrades := by rw [h.frame]
  have hfills : v.fills = u.fills := by rw [h.frame]
  rw [(h.inv hinv).recorded_iff, htrades, hfills]
  exact hinv.recorded_iff.1 hrecorded

/-- **Making orders** is all that a strategy does. -/
theorem makesOrders_of_run {u v : Backtest} {calls : List Call} (hcalls : ∀ call ∈ calls, call.Makes)
    (h : Transition.run step u calls = some v) : MakesOrders u v := by
  induction calls generalizing u with
  | nil =>
    obtain rfl := Option.some.inj h
    exact ⟨rfl, id⟩
  | cons call calls ih =>
    obtain ⟨hcall, hcalls⟩ := List.forall_mem_cons.1 hcalls
    obtain ⟨w, hw, h⟩ := Transition.run_cons_eq_some_iff.1 h
    obtain ⟨hframe, horders⟩ := ih hcalls h
    cases call with
    | makeOrder side orderType instrument qty price =>
      obtain rfl := Option.some.inj hw
      rcases makeOrder_cases side orderType instrument qty price u with ⟨e, he⟩ | ⟨a, wallet, hm, he⟩
      · rw [he] at hframe horders
        exact ⟨hframe, horders⟩
      · rw [he] at hframe horders
        exact ⟨hframe, fun hinv => horders (hinv.made hm)⟩
    | stageForExecution ids => exact hcall.elim
    | updateState => exact hcall.elim
    | next now midPrices => exact hcall.elim

theorem Strategy.makesOrders {state : σ} {inference : Option (R × ℚ)} {u v : Backtest}
    {res : Except PyError (Option (List ℕ) × σ)}
    (h : strategy.onDataUdf state event inference u = (res, v)) : MakesOrders u v := by
  obtain ⟨calls, hcalls, hrun⟩ := strategy.makes state event inference u
  rw [h] at hrun
  exact makesOrders_of_run hcalls hrun

/-! ### One event -/

/-- A round returns if the event can be processed. -/
theorem exists_processEvent_iff (hinv : OrdersInv s.backtest) :
    (∃ s', processEvent strategy tick s = (.ok (), s')) ↔ Processable strategy s tick := by
  cases hevent : tick.event with
  | none =>
    refine iff_of_true ⟨s, ?_⟩ fun event he => ?_
    · rw [processEvent, hevent]
      rfl
    · rw [hevent] at he
      cases he
  | some event =>
    simp only [processEvent_eq_ok_iff hevent]
    constructor
    · rintro ⟨s', midPrices, orders, state, made, t, hmid, hudf, hstage, hupdate⟩ _ he
      obtain rfl := Option.some.inj (hevent.symm.trans he)
      have hmade := Strategy.makesOrders hudf
      have hmids : made.midPrices = midPrices := congrArg Backtest.midPrices hmade.frame
      obtain ⟨snapshots, hsnapshots, rfl⟩ := stageOrders_eq_ok_iff.1 hstage
      obtain ⟨v, hv, -⟩ := onBacktest_eq_ok_iff.1 hupdate
      have hinv' : OrdersInv made := hmade.inv (hinv.congr rfl rfl)
      have hupdatable := (updateState_isOk_iff (hinv'.staged _ _)).1 ⟨v, hv⟩
      refine ⟨midPrices, orders, state, made, hmid, hudf, fun hne => ?_, hupdatable⟩
      rw [if_neg hne] at hsnapshots
      obtain ⟨_, _, ⟨total, htotal, -⟩, -⟩ := List.forall₂_cons_left_iff.1 hsnapshots
      rw [← hmids]
      exact ⟨total, htotal⟩
    · intro hprocessable
      obtain ⟨midPrices, orders, state, made, hmid, hudf, hbalanced, hupdatable⟩ :=
        hprocessable event hevent
      have hmade := Strategy.makesOrders hudf
      have hmids : made.midPrices = midPrices := congrArg Backtest.midPrices hmade.frame
      obtain ⟨snapshots, hsnapshots⟩ : ∃ snapshots, List.Forall₂ (fun p snapshot =>
          IsSnapshot p made.midPrices made.now snapshot)
          (if orders.getD [] = [] then [] else [made.portfolio]) snapshots := by
        split_ifs with hnil
        · exact ⟨[], .nil⟩
        · obtain ⟨total, htotal⟩ := hbalanced hnil
          exact ⟨[_], .cons ⟨total, hmids ▸ htotal, rfl⟩ .nil⟩
      have hinv' : OrdersInv made := hmade.inv (hinv.congr rfl rfl)
      obtain ⟨v, hv⟩ :=
        (updateState_isOk_iff (hinv'.staged (orders.getD []) snapshots)).2 hupdatable
      exact ⟨_, midPrices, orders, state, made, _, hmid, hudf,
        stageOrders_eq_ok_iff.2 ⟨snapshots, hsnapshots, rfl⟩,
        onBacktest_eq_ok_iff.2 ⟨v, hv, rfl⟩⟩

/-- **What a round does** when it returns. -/
theorem processes_of_ok (hinv : OrdersInv s.backtest) (hrecorded : Recorded s.backtest)
    (hevent : tick.event = some event) (h : processEvent strategy tick s = (.ok (), s')) :
    OrdersInv s'.backtest ∧ Recorded s'.backtest ∧ ∃ r, Processes strategy s tick r s' := by
  obtain ⟨midPrices, orders, state, made, t, hmid, hudf, hstage, hupdate⟩ :=
    (processEvent_eq_ok_iff hevent).1 h
  have hmade := Strategy.makesOrders hudf
  have hframe := hmade.frame
  obtain ⟨snapshots, hsnapshots, rfl⟩ := stageOrders_eq_ok_iff.1 hstage
  obtain ⟨v, hv, rfl⟩ := onBacktest_eq_ok_iff.1 hupdate
  have hinv' : OrdersInv made := hmade.inv (hinv.congr rfl rfl)
  have hrecorded' : Recorded made := hmade.recorded (hinv.congr rfl rfl) hrecorded
  obtain ⟨trades, hu⟩ := updates_of_ok (hinv'.staged _ _) hv
  have hnow : made.now = event.timestamp := congrArg Backtest.now hframe
  have hmids : made.midPrices = midPrices := congrArg Backtest.midPrices hframe
  have horders : made.orders = s.backtest.orders := by rw [hframe]; rfl
  have hfills : made.fills = s.backtest.fills := by rw [hframe]; rfl
  have htrades : made.executedTrades = s.backtest.executedTrades := by rw [hframe]; rfl
  have hbefore : made.stateSnapshots = s.backtest.stateSnapshots := by rw [hframe]; rfl
  obtain ⟨snapshots', hsnapshots', hfilled⟩ := hu.snapshots
  dsimp only [Backtest.staged] at hsnapshots hfilled
  rw [hmids, hnow] at hsnapshots hfilled
  refine ⟨hu.inv, recorded_of_updateState (hinv'.staged _ _) hrecorded' hv,
    ⟨event, midPrices, orders.getD [], trades, (if orders.getD [] = [] then [] else
      [made.portfolio]) ++ if trades = [] then [] else [v.portfolio]⟩, ?_⟩
  exact
    { event := hevent
      midPrices := hmid
      onData := ⟨orders, made, hudf, rfl, rfl⟩
      latestDataEvent := rfl
      clock := hu.now.trans hnow
      staged := hu.orders.trans (congrArg (· ++ orders.getD []) horders)
      priced := fun trade htrade => by
        obtain ⟨hid, htime, hprice⟩ := hu.priced trade htrade
        exact ⟨hu.orders ▸ hid, htime.trans hnow, hmids ▸ hprice⟩
      settled := hu.settled
      fills := hu.fills.trans (congrArg (· ++ trades) hfills)
      executedTrades := hu.executedTrades.trans (congrArg (recordTrades · trades) htrades)
      snapshots := by
        refine ⟨snapshots ++ snapshots', ?_, List.rel_append hsnapshots hfilled⟩
        rw [hsnapshots', ← List.append_assoc]
        exact congrArg (· ++ snapshots ++ snapshots') hbefore
      sampled := rfl }

/-! ### Runs -/

theorem loopStep_eq_some_iff :
    loopStep strategy s tick = some s' ↔ processEvent strategy tick s = (.ok (), s') := by
  rw [loopStep]
  rcases processEvent strategy tick s with ⟨e | u, t⟩
  · exact iff_of_false (by rintro ⟨⟩) (by rintro ⟨⟩)
  · rw [Option.some.injEq, Prod.mk.injEq, and_iff_right rfl]

theorem processEvents_eq_ok_iff : processEvents strategy ticks s = (.ok (), s') ↔
    Transition.run (loopStep strategy) s ticks = some s' := by
  induction ticks generalizing s with
  | nil => simp [processEvents, pure_apply]
  | cons tick ticks ih =>
    rw [processEvents, Raising.bind_eq_ok_iff, Transition.run_cons_eq_some_iff]
    constructor
    · rintro ⟨_, t, ht, hrest⟩
      exact ⟨t, loopStep_eq_some_iff.2 ht, ih.1 hrest⟩
    · rintro ⟨t, ht, hrest⟩
      exact ⟨(), t, loopStep_eq_some_iff.1 ht, ih.2 hrest⟩

/-- What holds between the rounds. -/
structure LoopInv (s : LoopState σ) : Prop where
  inv : OrdersInv s.backtest
  recorded : Recorded s.backtest

theorem loopInv_init (portfolio : Portfolio) (now : ℚ) (state : σ) :
    LoopInv (LoopState.init portfolio now state) where
  inv := ⟨fun id o ho => by simp [LoopState.init, initial] at ho,
    fun id o ho => by simp [LoopState.init, initial] at ho,
    fun id => by simp [LoopState.init, initial]⟩
  recorded id := by simp [LoopState.init, initial]

/-- **One step**: the event is skipped or processed. -/
theorem LoopInv.step (h : LoopInv s) (hstep : loopStep strategy s tick = some s') :
    LoopInv s' ∧ (tick.event = none ∧ s' = s ∨ ∃ r, Processes strategy s tick r s') := by
  have hok := loopStep_eq_some_iff.1 hstep
  cases hevent : tick.event with
  | none =>
    rw [processEvent, hevent] at hok
    obtain rfl := (Prod.mk.inj hok).2
    exact ⟨h, .inl ⟨rfl, rfl⟩⟩
  | some event =>
    obtain ⟨hinv, hrecorded, hr⟩ := processes_of_ok h.inv h.recorded hevent hok
    exact ⟨⟨hinv, hrecorded⟩, .inr hr⟩

/-- **A whole run** of the loop processes all events. -/
theorem LoopInv.run (h : LoopInv s)
    (hrun : Transition.run (loopStep strategy) s ticks = some s') :
    LoopInv s' ∧ ∃ rounds, ProcessesAll strategy s ticks rounds s' := by
  induction ticks generalizing s with
  | nil =>
    obtain rfl := Option.some.inj hrun
    exact ⟨h, [], .nil s⟩
  | cons tick ticks ih =>
    obtain ⟨t, ht, hrun⟩ := Transition.run_cons_eq_some_iff.1 hrun
    obtain ⟨hinv, hround⟩ := h.step ht
    obtain ⟨hinv', rounds, hrounds⟩ := ih hinv hrun
    refine ⟨hinv', ?_⟩
    rcases hround with ⟨hnone, rfl⟩ | ⟨r, hr⟩
    · exact ⟨rounds, .skip hnone hrounds⟩
    · exact ⟨r :: rounds, .round hr hrounds⟩

/-- The loop comes to its end if and only if every event can be processed. -/
theorem LoopInv.exists_run_iff (h : LoopInv s) :
    (∃ s', Transition.run (loopStep strategy) s ticks = some s') ↔
      Transition.AllSteps (loopStep strategy) (Processable strategy) s ticks := by
  induction ticks generalizing s with
  | nil => exact iff_of_true ⟨s, rfl⟩ trivial
  | cons tick ticks ih =>
    constructor
    · rintro ⟨s', hrun⟩
      obtain ⟨t, ht, hrun⟩ := Transition.run_cons_eq_some_iff.1 hrun
      refine (Transition.allSteps_cons_of_step ht).2 ⟨?_, (ih (h.step ht).1).1 ⟨s', hrun⟩⟩
      exact (exists_processEvent_iff h.inv).1 ⟨t, loopStep_eq_some_iff.1 ht⟩
    · rintro ⟨hprocessable, hrest⟩
      obtain ⟨t, ht⟩ := (exists_processEvent_iff h.inv).2 hprocessable
      have ht := loopStep_eq_some_iff.2 ht
      obtain ⟨s', hrun⟩ := (ih (h.step ht).1).2 (hrest t ht)
      exact ⟨s', Transition.run_cons_eq_some_iff.2 ⟨t, ht, hrun⟩⟩

namespace ProcessesAll

theorem events (h : ProcessesAll strategy s ticks rounds s') :
    rounds.map Round.event = ticks.filterMap Tick.event := by
  induction h with
  | nil => rfl
  | skip hnone _ ih => rw [ih, List.filterMap_cons_none hnone]
  | round hr _ ih => rw [List.map_cons, ih, List.filterMap_cons_some hr.event]

theorem executedTrades (h : ProcessesAll strategy s ticks rounds s') :
    s'.backtest.executedTrades =
      recordTrades s.backtest.executedTrades (rounds.flatMap Round.trades) := by
  induction h with
  | nil => rfl
  | skip _ _ ih => exact ih
  | round hr _ ih =>
    rw [ih, hr.executedTrades, List.flatMap_cons, recordTrades, recordTrades, recordTrades,
      List.foldl_append]

theorem sampledMidPrices (h : ProcessesAll strategy s ticks rounds s') :
    s'.sampledMidPrices = rounds.foldl (fun sampled r =>
      samplePrices sampled r.event.timestamp r.midPrices) s.sampledMidPrices := by
  induction h with
  | nil => rfl
  | skip _ _ ih => exact ih
  | round hr _ ih => rw [ih, hr.sampled, List.foldl_cons]

theorem snapshots (h : ProcessesAll strategy s ticks rounds s') :
    ∃ snapshots, s'.backtest.stateSnapshots = s.backtest.stateSnapshots ++ snapshots ∧
      List.Forall₂ (fun (c : Round × Portfolio) snapshot =>
        IsSnapshot c.2 c.1.midPrices c.1.event.timestamp snapshot)
        (rounds.flatMap fun r => r.changes.map fun p => (r, p)) snapshots := by
  induction h with
  | nil => exact ⟨[], (List.append_nil _).symm, .nil⟩
  | skip _ _ ih => exact ih
  | round hr _ ih =>
    obtain ⟨snapshots, hsnapshots, hall⟩ := hr.snapshots
    obtain ⟨rest, hrest, hall'⟩ := ih
    refine ⟨snapshots ++ rest, ?_, ?_⟩
    · rw [hrest, hsnapshots, List.append_assoc]
    · rw [List.flatMap_cons]
      exact List.rel_append (List.forall₂_map_left_iff.2 hall) hall'

end ProcessesAll

/-! ### The whole of `run` -/

theorem return_eq_ok_iff : (return () : LoopM σ Unit) s = (.ok (), s') ↔ s' = s := by
  rw [pure_apply, Prod.mk.injEq, and_iff_right rfl, eq_comm]

theorem startInference_eq_ok_iff : startInference strategy serving s = (.ok (), s') ↔
    s' = s ∧ ∀ config, strategy.inferenceConfig = some config →
      startServePredictorDeployment serving config = .ok () ∧ serving.answers config := by
  rw [startInference]
  cases strategy.inferenceConfig with
  | none => exact return_eq_ok_iff.trans (and_iff_left (by rintro _ ⟨⟩)).symm
  | some config =>
    simp only [Option.some.injEq, forall_eq']
    cases startServePredictorDeployment serving config with
    | error e => exact iff_of_false (by rintro ⟨⟩) (by rintro ⟨-, ⟨⟩, -⟩)
    | ok u =>
      rw [Except.mapError, lift_ok_bind, and_iff_right rfl]
      split_ifs with hanswers
      · exact return_eq_ok_iff.trans (and_iff_left hanswers).symm
      · exact iff_of_false (by rintro ⟨⟩) fun h => hanswers h.2

theorem stopInference_eq_ok_iff : stopInference strategy s = (.ok (), s') ↔
    s' = s ∧ strategy.inferenceConfig.isSome := by
  rw [stopInference]
  cases strategy.inferenceConfig with
  | none => exact iff_of_false (by rintro ⟨⟩) (by rintro ⟨-, ⟨⟩⟩)
  | some config => exact return_eq_ok_iff.trans (and_iff_left rfl).symm

/-- **When `run` returns**, and what. -/
theorem runLoop_eq_ok_iff {result : LoopRunResult R} :
    runLoop strategy serving ticks s = (.ok result, s') ↔
      StartsInference strategy serving ∧ Transition.run (loopStep strategy) s ticks = some s' ∧
        result = loopRunResult strategy serving s' := by
  rw [runLoop, Raising.bind_eq_ok_iff]
  constructor
  · rintro ⟨_, s₁, hstart, hrest⟩
    obtain ⟨rfl, hserves⟩ := startInference_eq_ok_iff.1 hstart
    obtain ⟨_, s₂, hrun, hrest⟩ := Raising.bind_eq_ok_iff.1 hrest
    obtain ⟨_, s₃, hstop, hreturn⟩ := Raising.bind_eq_ok_iff.1 hrest
    obtain ⟨rfl, hsome⟩ := stopInference_eq_ok_iff.1 hstop
    obtain ⟨config, hconfig⟩ := Option.isSome_iff_exists.1 hsome
    rw [get_bind, pure_apply] at hreturn
    obtain ⟨hresult, rfl⟩ := Prod.mk.inj hreturn
    exact ⟨⟨config, hconfig, hserves config hconfig⟩, processEvents_eq_ok_iff.1 hrun,
      (Except.ok.inj hresult).symm⟩
  · rintro ⟨⟨config, hconfig, hstart⟩, hrun, rfl⟩
    refine ⟨(), s, startInference_eq_ok_iff.2 ⟨rfl, fun config' hconfig' => ?_⟩, ?_⟩
    · obtain rfl := Option.some.inj (hconfig.symm.trans hconfig')
      exact hstart
    · refine Raising.bind_eq_ok_iff.2 ⟨(), s', processEvents_eq_ok_iff.2 hrun, ?_⟩
      refine Raising.bind_eq_ok_iff.2 ⟨(), s', stopInference_eq_ok_iff.2 ⟨rfl, ?_⟩, rfl⟩
      rw [hconfig, Option.isSome_some]

/-- **The backtest loop** meets its contract if and only if the strategy has an inference config,
whose deployment starts and answers, and every event can be processed. -/
theorem loopContract_iff (strategy : Strategy σ R) (serving : Serving R) (portfolio : Portfolio)
    (now : ℚ) (state : σ) (ticks : List (Tick R)) :
    (∃ result s rounds,
      runLoop strategy serving ticks (.init portfolio now state) = (.ok result, s) ∧
        LoopContract strategy (.init portfolio now state) ticks result s rounds) ↔
      StartsInference strategy serving ∧
        Transition.AllSteps (loopStep strategy) (Processable strategy)
          (.init portfolio now state) ticks := by
  have hinit := loopInv_init portfolio now state
  rw [← hinit.exists_run_iff]
  constructor
  · rintro ⟨result, s, rounds, hrun, -⟩
    obtain ⟨hstarts, hrun, -⟩ := runLoop_eq_ok_iff.1 hrun
    exact ⟨hstarts, s, hrun⟩
  · rintro ⟨hstarts, s, hrun⟩
    obtain ⟨hinv, rounds, hrounds⟩ := hinit.run hrun
    refine ⟨_, s, rounds, runLoop_eq_ok_iff.2 ⟨hstarts, hrun, rfl⟩, ?_⟩
    exact
      { processes := hrounds
        events := hrounds.events
        recorded := hinv.recorded
        executedTrades := hrounds.executedTrades
        portfolioBalances := by
          obtain ⟨snapshots, hsnapshots, hall⟩ := hrounds.snapshots
          rw [loopRunResult, hsnapshots]
          refine List.forall₂_map_right_iff.2 (hall.imp fun {c snapshot} hc => ?_)
          exact ⟨snapshot, hc, rfl⟩
        sampledPrices := hrounds.sampledMidPrices }

/-! ### A strategy without an inference config -/

/-- A strategy that buys at its first event. -/
def buyOnce (inferenceConfig : Option InferenceConfig) : Strategy Bool Unit where
  inferenceConfig := inferenceConfig
  onDataUdf bought _ _ := do
    if bought then return (none, bought)
    else do
      let order ← makeOrder .buy .market demoInstrument 1 100
      return (some [order.orderId], true)
  makes := by
    intro bought event inference s
    cases bought with
    | true => exact ⟨[], by simp, rfl⟩
    | false =>
      refine ⟨[.makeOrder .buy .market demoInstrument 1 100], by simp [Call.Makes], ?_⟩
      rcases makeOrder_cases .buy .market demoInstrument 1 100 s with ⟨e, he⟩ | ⟨a, wallet, -, he⟩
      · simp [Transition.run, step, he, bind_of_error he]
      · simp [Transition.run, step, he, bind_of_ok he, pure_apply]
  returnsMade := by
    intro bought event inference s ids bought' h
    cases bought with
    | true => cases h
    | false =>
      rcases makeOrder_cases .buy .market demoInstrument 1 100 s with ⟨e, he⟩ | ⟨a, wallet, -, he⟩
      · simp [bind_of_error he] at h
      · simp only [Bool.false_eq_true, if_false, bind_of_ok he, pure_apply] at h ⊢
        cases h
        simp [Backtest.made]

/-- Everything starts and answers. -/
def demoServing : Serving Unit where
  prepare _ := .ok ()
  deploy _ := .ok ()
  answers _ := true
  inferenceResults := []

/-- The mid price of the instrument at a time. -/
def demoEvent (timestamp midPrice : ℚ) : Tick Unit where
  event := some ⟨timestamp, timestamp,
    [(.source ⟨"mid_price", [("exchange", "BINANCE"), ("instrument_type", "spot"),
      ("symbol", "BTC-USDT")]⟩, .midPrice ⟨timestamp, timestamp, midPrice⟩)]⟩
  inference := none

/-- A run with an inference config. -/
example : ((runLoop (buyOnce (some ⟨"model", "uri", "XGBoostPredictor", 1⟩)) demoServing
    [demoEvent 1 100, ⟨none, none⟩, demoEvent 2 110] (.init demoPortfolio (-1) false)).1.map
      fun result => (result.executedTrades.map fun p => p.2.map Trade.price,
        result.portfolioBalances.map PortfolioBalanceRecord.timestamp,
        result.sampledPrices.map Prod.snd)) =
    .ok ([[100]], [1, 1], [[(1, 100), (2, 110)]]) := by
  decide +kernel

/-- Without one, the order is filled and then the run raises. -/
theorem not_loopContract_withoutInference :
    (runLoop (buyOnce none) demoServing [demoEvent 1 100]
        (.init demoPortfolio (-1) false)).2.backtest.fills.map Trade.price = [100] ∧
      ¬ ∃ result s rounds,
        runLoop (buyOnce none) demoServing [demoEvent 1 100] (.init demoPortfolio (-1) false) =
          (.ok result, s) ∧
        LoopContract (buyOnce none) (.init demoPortfolio (-1) false) [demoEvent 1 100] result s
          rounds := by
  refine ⟨by decide +kernel, ?_⟩
  rintro ⟨result, s, rounds, hrun, -⟩
  have hraises : (runLoop (buyOnce none) demoServing [demoEvent 1 100]
      (.init demoPortfolio (-1) false)).1 = .error .attribute := by
    decide +kernel
  rw [hrun] at hraises
  cases hraises

end Backtester

end Svoe
