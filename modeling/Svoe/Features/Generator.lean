import Svoe.Common.Dict
import Svoe.Features.StreamTree

/-!
# The live generator

`FeatureStreamGenerator` feeds its input events, grouped by timestamp, to the stream trees of all
features, joins their out streams with `combine_latest` and hands out the latest joined event.

`Generator.next` emits `[data, event]` lists into the data streams, and the sink unpacks such lists
again; the definitions in between consume and produce bare events.  So the generator agrees with the
offline streams only on inputs that reach no feature (`liveAgrees_iff`): the first event that
reaches one raises.
-/

namespace Svoe

/-- `Instrument`. -/
structure Instrument where
  exchange : String
  instrumentType : String
  symbol : String
  deriving DecidableEq, Repr

/-- `repr`, for fields without quotes. -/
def Instrument.text (i : Instrument) : String :=
  "Instrument(exchange='" ++ i.exchange ++ "', instrument_type='" ++ i.instrumentType ++
    "', symbol='" ++ i.symbol ++ "')"

/-- `DataStreamEvent`. -/
structure DataStreamEvent where
  timestamp : ℚ
  receiptTimestamp : ℚ
  featureValues : List (Feature × DataEvent)
  deriving DecidableEq

/-- The stream tree of a feature, with the element of it that `combine_latest` holds. -/
structure StreamTree where
  feature : Feature
  state : feature.State
  last : Option Elem

/-- The attributes of `FeatureStreamGenerator` that `next` reads and writes.  `inputDataEvents` are
the ones from `cur_input_event_index` on, `queue` belongs to the trade-volume-imbalance class. -/
structure Generator where
  dataStreams : List StreamTree
  queue : List TradeEvent
  curOutEvent : Option DataStreamEvent
  shouldConstructNewOutEvent : Bool
  inputDataEvents : List (Source × DataEvent)
  sampledMidPrices : List (Instrument × List (ℚ × ℚ))
  lastSampledTs : Option ℚ

namespace Generator

/-- `__init__`, for distinct features and the events of their data sources. -/
def init (features : List Feature) (inputDataEvents : List (Source × DataEvent)) : Generator where
  dataStreams := features.map fun f => ⟨f, f.constructStreamTree, none⟩
  queue := []
  curOutEvent := none
  shouldConstructNewOutEvent := true
  inputDataEvents := inputDataEvents
  sampledMidPrices := []
  lastSampledTs := none

/-! ### The joined out stream -/

/-- The body of the loop in the sink `_unified_out_stream`. -/
def sinkElem (g : Generator) (elem : Elem) : Except PyError Generator :=
  match elem with
  -- `l[0]` of an event
  | .bare _ => .error (.key "0")
  | .named data event =>
    let out := match g.shouldConstructNewOutEvent, g.curOutEvent with
      | false, some out => out
      | _, _ => ⟨event.timestamp, event.receiptTimestamp, []⟩
    .ok { g with
      shouldConstructNewOutEvent := false
      curOutEvent := some { out with
        featureValues := dictSet out.featureValues (.source data) event } }

/-- `combine_latest` and the sink: nothing happens until every out stream has emitted. -/
def emitUnified (g : Generator) (trees : List StreamTree) : Except PyError Generator :=
  match trees.mapM StreamTree.last with
  | none => .ok g
  | some elems => elems.foldlM sinkElem g

/-- The loop over the features that emits an input event; `done` are the trees passed. -/
def emitData (stddev : List ℚ → ℚ) (data : Source) (event : DataEvent) (g : Generator)
    (done : List StreamTree) : List StreamTree → Except PyError Generator
  | [] => .ok { g with dataStreams := done }
  | tree :: trees =>
    if data = tree.feature.dataSource then
      match tree.feature.emit stddev g.queue tree.state (.named data event) with
      | .error e => .error e
      | .ok (queue, state, none) =>
        emitData stddev data event { g with queue := queue }
          (done ++ [⟨tree.feature, state, tree.last⟩]) trees
      | .ok (queue, state, some elem) =>
        match emitUnified { g with queue := queue }
            (done ++ ⟨tree.feature, state, some elem⟩ :: trees) with
        | .error e => .error e
        | .ok g => emitData stddev data event g
            (done ++ [⟨tree.feature, state, some elem⟩]) trees
    else emitData stddev data event g (done ++ [tree]) trees

/-! ### Sampled prices -/

/-- `params[key]` of a data source. -/
def getParam (data : Source) (key : String) : Except PyError String :=
  match dictGet data.params key with
  | some v => .ok v
  | none => .error (.key key)

/-- `get_instrument_for_feature`; a feature has exactly one data source. -/
def getInstrumentForFeature (f : Feature) : Except PyError Instrument := do
  let exchange ← getParam f.dataSource "exchange"
  let instrumentType ← getParam f.dataSource "instrument_type"
  let symbol ← getParam f.dataSource "symbol"
  return ⟨exchange, instrumentType, symbol⟩

/-- `get_mid_prices_from_event`. -/
def getMidPricesFromEvent (out : DataStreamEvent) : Except PyError (List (Instrument × ℚ)) :=
  out.featureValues.foldlM (fun midPrices p =>
    match p.2.value "mid_price" with
    | .error _ => .error (.value
        "DataGenerator event should contain mid_price field for all data/instrument inputs")
    | .ok midPrice => (getInstrumentForFeature p.1).map fun instrument =>
        dictSet midPrices instrument midPrice) []

/-- The update of the sampled mid prices in `next`; nothing ever sets `lastSampledTs`. -/
def sampleMidPrices (g : Generator) (out : DataStreamEvent) : Except PyError Generator :=
  match g.lastSampledTs with
  -- a number is compared with the period's string
  | some _ => .error .type
  | none => (getMidPricesFromEvent out).map fun midPrices =>
      let sampled := midPrices.foldl (fun sampled p =>
        dictSet sampled p.1 ((dictGet sampled p.1).getD [] ++ [(out.timestamp, p.2)]))
        g.sampledMidPrices
      { g with sampledMidPrices := sampled }

/-! ### Steps -/

/-- `_pop_input_events`: the events with the timestamp of the first one. -/
def popInputEvents (g : Generator) : Except PyError (List (Source × DataEvent) × Generator) :=
  match g.inputDataEvents with
  | [] => .error .index
  | p :: rest =>
    let same := fun q : Source × DataEvent => p.2.timestamp = q.2.timestamp
    .ok (p :: rest.takeWhile same, { g with inputDataEvents := rest.dropWhile same })

/-- Emitting a group of events. -/
def emitGroup (stddev : List ℚ → ℚ) (g : Generator) (group : List (Source × DataEvent)) :
    Except PyError Generator :=
  group.foldlM (fun g p => emitData stddev p.1 p.2 g [] g.dataStreams) g

/-- The end of `next`. -/
def finish (g : Generator) : Except PyError (Generator × Option DataStreamEvent) :=
  let g := { g with shouldConstructNewOutEvent := true }
  match g.curOutEvent with
  | none => .ok (g, none)
  | some out => (sampleMidPrices g out).map fun g => (g, some out)

/-- `next`. -/
def next (stddev : List ℚ → ℚ) (g : Generator) :
    Except PyError (Generator × Option DataStreamEvent) :=
  match g.popInputEvents with
  | .error e => .error e
  | .ok (group, g) =>
    match g.emitGroup stddev group with
    | .error e => .error e
    | .ok g => g.finish

/-- `has_next`. -/
def hasNext (g : Generator) : Bool := g.inputDataEvents ≠ []

/-- `while has_next: next`, to the end and without an exception, with what `next` returns. -/
inductive RunsTo (stddev : List ℚ → ℚ) : Generator → List (Option DataStreamEvent) → Prop
  | done {g : Generator} (h : g.hasNext = false) : RunsTo stddev g []
  | step {g g' : Generator} {out : Option DataStreamEvent} {outs : List (Option DataStreamEvent)}
      (h : g.hasNext = true) (hnext : g.next stddev = .ok (g', out))
      (hrun : RunsTo stddev g' outs) : RunsTo stddev g (out :: outs)

/-! ### Events that reach a feature, and others -/

section Routing

variable {stddev : List ℚ → ℚ} {g : Generator} {data : Source} {event : DataEvent}
  {trees done : List StreamTree}

/-- An event of a data source that no tree has is not emitted. -/
theorem emitData_of_forall_ne (h : ∀ t ∈ trees, data ≠ t.feature.dataSource) :
    emitData stddev data event g done trees = .ok { g with dataStreams := done ++ trees } := by
  induction trees generalizing done with
  | nil => rw [emitData, List.append_nil]
  | cons t trees ih =>
    obtain ⟨ht, htrees⟩ := List.forall_mem_cons.1 h
    rw [emitData, if_neg ht, ih htrees, List.append_assoc, List.singleton_append]

/-- An event that reaches a feature raises. -/
theorem emitData_of_exists_eq (stddev : List ℚ → ℚ) (event : DataEvent)
    (hder : ∀ t ∈ trees, ∃ d dep, t.feature = .derived d dep)
    (h : ∃ t ∈ trees, data = t.feature.dataSource) :
    ∃ err, emitData stddev data event g done trees = .error err := by
  induction trees generalizing done with
  | nil => simp at h
  | cons t trees ih =>
    obtain ⟨⟨d, dep, ht⟩, htrees⟩ := List.forall_mem_cons.1 hder
    by_cases hdata : data = t.feature.dataSource
    · obtain ⟨f, state, last⟩ := t
      obtain rfl : f = .derived d dep := ht
      obtain ⟨err, herr⟩ := Feature.emit_named stddev g.queue d dep state data event
      exact ⟨err, by rw [emitData, if_pos hdata, herr]⟩
    · rw [emitData, if_neg hdata]
      exact ih htrees ((List.exists_mem_cons_iff _ _ _).1 h |>.resolve_left hdata)

theorem emitGroup_of_forall_ne (stddev : List ℚ → ℚ) {group : List (Source × DataEvent)}
    (h : ∀ p ∈ group, ∀ t ∈ g.dataStreams, p.1 ≠ t.feature.dataSource) :
    g.emitGroup stddev group = .ok g := by
  unfold emitGroup
  induction group with
  | nil => rfl
  | cons p group ih =>
    obtain ⟨hp, hgroup⟩ := List.forall_mem_cons.1 h
    rw [List.foldlM_cons, emitData_of_forall_ne hp]
    exact ih hgroup

/-- The first event of a group that reaches a feature raises. -/
theorem emitGroup_of_exists_eq (stddev : List ℚ → ℚ) {group : List (Source × DataEvent)}
    (hder : ∀ t ∈ g.dataStreams, ∃ d dep, t.feature = .derived d dep)
    (h : ∃ p ∈ group, ∃ t ∈ g.dataStreams, p.1 = t.feature.dataSource) :
    ∃ err, g.emitGroup stddev group = .error err := by
  unfold emitGroup
  induction group with
  | nil => simp at h
  | cons p group ih =>
    rw [List.foldlM_cons]
    by_cases hp : ∃ t ∈ g.dataStreams, p.1 = t.feature.dataSource
    · obtain ⟨err, herr⟩ := emitData_of_exists_eq stddev p.2 hder hp
      exact ⟨err, by rw [herr]; rfl⟩
    · have hgroup := (List.exists_mem_cons_iff _ _ _).1 h |>.resolve_left hp
      rw [emitData_of_forall_ne fun t ht heq => hp ⟨t, ht, heq⟩]
      exact ih hgroup

end Routing

end Generator

/-! ### Agreement with the offline streams -/

/-- The events that `next` reports for a feature. -/
def delivered (f : Feature) (outs : List (Option DataStreamEvent)) : List DataEvent :=
  outs.filterMap fun out => out.bind fun e => dictGet e.featureValues f

/-- The generator runs to the end of its input without raising, and reports for each feature what
the feature's stream tree gives offline for the events of its data source. -/
def LiveAgrees (stddev : List ℚ → ℚ) (features : List Feature)
    (inputEvents : List (Source × DataEvent)) : Prop :=
  ∃ outs, (Generator.init features inputEvents).RunsTo stddev outs ∧ ∀ f ∈ features,
    f.runNamedEvents stddev (inputEvents.filter fun p => p.1 = f.dataSource) =
      .ok ((delivered f outs).map .bare)

/-- A generator that has not reported anything yet, for features that definitions make. -/
structure Idle (g : Generator) : Prop where
  derived : ∀ t ∈ g.dataStreams, ∃ d dep, t.feature = .derived d dep
  noEvent : g.curOutEvent = none

/-- An input event that reaches a feature. -/
def Reaches (g : Generator) : Prop :=
  ∃ p ∈ g.inputDataEvents, ∃ t ∈ g.dataStreams, p.1 = t.feature.dataSource

section Agreement

variable {stddev : List ℚ → ℚ} {g : Generator} {p : Source × DataEvent}
  {rest : List (Source × DataEvent)}

/-- A step whose events reach no feature only consumes them. -/
theorem Idle.next_eq (stddev : List ℚ → ℚ) (h : Idle g) (hin : g.inputDataEvents = p :: rest)
    (hgroup : ∀ q ∈ p :: rest.takeWhile (fun q => p.2.timestamp = q.2.timestamp),
      ∀ t ∈ g.dataStreams, q.1 ≠ t.feature.dataSource) :
    g.next stddev = .ok ({ g with
      inputDataEvents := rest.dropWhile fun q => p.2.timestamp = q.2.timestamp
      shouldConstructNewOutEvent := true }, none) := by
  have hemit := Generator.emitGroup_of_forall_ne stddev
    (g := { g with inputDataEvents := rest.dropWhile fun q => p.2.timestamp = q.2.timestamp })
    hgroup
  rw [Generator.next, Generator.popInputEvents, hin]
  simp only [hemit]
  simp only [Generator.finish, h.noEvent]

/-- A step with an event that reaches a feature raises. -/
theorem Idle.next_error (stddev : List ℚ → ℚ) (h : Idle g) (hin : g.inputDataEvents = p :: rest)
    (hgroup : ∃ q ∈ p :: rest.takeWhile (fun q => p.2.timestamp = q.2.timestamp),
      ∃ t ∈ g.dataStreams, q.1 = t.feature.dataSource) :
    ∃ err, g.next stddev = .error err := by
  obtain ⟨err, herr⟩ := Generator.emitGroup_of_exists_eq stddev
    (g := { g with inputDataEvents := rest.dropWhile fun q => p.2.timestamp = q.2.timestamp })
    h.derived hgroup
  exact ⟨err, by rw [Generator.next, Generator.popInputEvents, hin]; simp only [herr]⟩

/-- A run over an input that reaches a feature does not get to its end. -/
theorem Idle.not_runsTo (h : Idle g) (hreach : Reaches g)
    {outs : List (Option DataStreamEvent)} : ¬ g.RunsTo stddev outs := by
  intro hrun
  induction hrun with
  | @done g hdone =>
    obtain ⟨p, hp, -⟩ := hreach
    have hnil : g.inputDataEvents = [] := by simpa [Generator.hasNext] using hdone
    rw [hnil] at hp
    cases hp
  | @step g g' out outs hhas hnext hrun ih =>
    obtain ⟨p, hp, hroute⟩ := hreach
    cases hin : g.inputDataEvents with
    | nil => rw [hin] at hp; cases hp
    | cons q rest =>
      by_cases hgroup : ∃ r ∈ q :: rest.takeWhile (fun r => q.2.timestamp = r.2.timestamp),
          ∃ t ∈ g.dataStreams, r.1 = t.feature.dataSource
      · obtain ⟨err, herr⟩ := h.next_error stddev hin hgroup
        rw [herr] at hnext
        cases hnext
      · have hne : ∀ r ∈ q :: rest.takeWhile (fun r => q.2.timestamp = r.2.timestamp),
            ∀ t ∈ g.dataStreams, r.1 ≠ t.feature.dataSource :=
          fun r hr t ht heq => hgroup ⟨r, hr, t, ht, heq⟩
        rw [h.next_eq stddev hin hne] at hnext
        obtain ⟨rfl, -⟩ := Prod.mk.inj (Except.ok.inj hnext)
        refine ih ⟨h.derived, h.noEvent⟩ ⟨p, ?_, hroute⟩
        -- the event was not popped, so it is still to come
        rw [hin, ← List.takeWhile_append_dropWhile (p := fun r : Source × DataEvent =>
          decide (q.2.timestamp = r.2.timestamp)) (l := rest), ← List.cons_append] at hp
        refine (List.mem_append.1 hp).resolve_left fun hmem => ?_
        obtain ⟨t, ht, heq⟩ := hroute
        exact hne p hmem t ht heq

/-- A run over an input that reaches no feature ends, and reports nothing. -/
theorem Idle.exists_runsTo (h : Idle g) (hreach : ¬ Reaches g) :
    ∃ outs, g.RunsTo stddev outs ∧ ∀ out ∈ outs, out = none := by
  induction hn : g.inputDataEvents.length using Nat.strong_induction_on generalizing g with
  | _ n ih =>
    cases hin : g.inputDataEvents with
    | nil => exact ⟨[], .done (by simp [Generator.hasNext, hin]), by simp⟩
    | cons p rest =>
      have hne : ∀ q ∈ p :: rest, ∀ t ∈ g.dataStreams, q.1 ≠ t.feature.dataSource :=
        fun q hq t ht heq => hreach ⟨q, hin ▸ hq, t, ht, heq⟩
      have hnext := h.next_eq stddev hin fun q hq => hne q <|
        ((List.takeWhile_sublist _).cons_cons p).subset hq
      have hdrop := List.dropWhile_sublist (l := rest) fun q : Source × DataEvent =>
        decide (p.2.timestamp = q.2.timestamp)
      have hlt : (rest.dropWhile fun q => p.2.timestamp = q.2.timestamp).length < n := by
        rw [← hn, hin]
        exact Nat.lt_succ_of_le hdrop.length_le
      obtain ⟨outs, hrun, hnone⟩ := ih _ hlt (g := { g with
          inputDataEvents := rest.dropWhile fun q => p.2.timestamp = q.2.timestamp
          shouldConstructNewOutEvent := true }) ⟨h.derived, h.noEvent⟩
        (fun ⟨q, hq, t, ht, heq⟩ => hne q (List.mem_cons_of_mem p (hdrop.subset hq)) t ht heq) rfl
      refine ⟨none :: outs, .step (by simp [Generator.hasNext, hin]) hnext hrun, ?_⟩
      exact List.forall_mem_cons.2 ⟨rfl, hnone⟩

theorem idle_init {features : List Feature} {inputEvents : List (Source × DataEvent)}
    (hder : ∀ f ∈ features, ∃ d dep, f = .derived d dep) :
    Idle (Generator.init features inputEvents) := by
  refine ⟨?_, rfl⟩
  intro t ht
  obtain ⟨f, hf, rfl⟩ := List.mem_map.1 ht
  exact hder f hf

theorem reaches_init_iff {features : List Feature} {inputEvents : List (Source × DataEvent)} :
    Reaches (Generator.init features inputEvents) ↔
      ∃ p ∈ inputEvents, ∃ f ∈ features, p.1 = f.dataSource := by
  unfold Reaches Generator.init
  simp only [List.mem_map]
  constructor
  · rintro ⟨p, hp, t, ⟨f, hf, rfl⟩, heq⟩
    exact ⟨p, hp, f, hf, heq⟩
  · rintro ⟨p, hp, f, hf, heq⟩
    exact ⟨p, hp, _, ⟨f, hf, rfl⟩, heq⟩

/-- **The live generator agrees with the offline streams** of features that definitions make if
and only if none of its input events is of a data source of one of them. -/
theorem liveAgrees_iff (stddev : List ℚ → ℚ) {features : List Feature}
    (hder : ∀ f ∈ features, ∃ d dep, f = .derived d dep)
    (inputEvents : List (Source × DataEvent)) :
    LiveAgrees stddev features inputEvents ↔
      ∀ p ∈ inputEvents, ∀ f ∈ features, p.1 ≠ f.dataSource := by
  constructor
  · rintro ⟨outs, hrun, -⟩ p hp f hf heq
    exact (idle_init hder).not_runsTo (reaches_init_iff.2 ⟨p, hp, f, hf, heq⟩) hrun
  · intro hne
    have hreach : ¬ Reaches (Generator.init features inputEvents) := fun hreach => by
      obtain ⟨p, hp, f, hf, heq⟩ := reaches_init_iff.1 hreach
      exact hne p hp f hf heq
    obtain ⟨outs, hrun, hnone⟩ := (idle_init hder).exists_runsTo hreach
    refine ⟨outs, hrun, fun f hf => ?_⟩
    have hdel : delivered f outs = [] := by
      refine List.filterMap_eq_nil_iff.2 fun out hout => ?_
      rw [hnone out hout]
      rfl
    have hfilter : (inputEvents.filter fun p => p.1 = f.dataSource) = [] :=
      List.filter_eq_nil_iff.2 fun p hp => by simpa using hne p hp f hf
    rw [hdel, hfilter]
    rfl

end Agreement

/-- The book of a data source. -/
def bookSource (symbol : String) : Source :=
  ⟨"CryptotickL2BookIncrementalData",
    [("exchange", "BINANCE"), ("instrument_type", "spot"), ("symbol", symbol)]⟩

/-- The mid price of a book. -/
def midPriceFeature : Feature :=
  .derived .midPrice (.derived (.l2Snapshot 25 .raw none) (.source (bookSource "BTC-USDT")))

/-- A snapshot with one level on each side. -/
def bookEvent : DataEvent :=
  .cryptotickBook ⟨1, 1, .snapshot, [⟨.bid, 100, 1⟩, ⟨.ask, 102, 1⟩]⟩

theorem liveAgrees_otherSymbol :
    LiveAgrees (fun _ => 0) [midPriceFeature] [(bookSource "ETH-USDT", bookEvent)] :=
  (liveAgrees_iff _ (by simp [midPriceFeature]) _).2 (by decide)

theorem not_liveAgrees_bookEvent :
    midPriceFeature.runNamedEvents (fun _ => 0) [(bookSource "BTC-USDT", bookEvent)] =
        .ok [.bare (.midPrice ⟨1, 1, 101⟩)] ∧
      ¬ LiveAgrees (fun _ => 0) [midPriceFeature] [(bookSource "BTC-USDT", bookEvent)] := by
  refine ⟨by decide +kernel, ?_⟩
  rintro ⟨outs, hrun, -⟩
  exact (idle_init (by simp [midPriceFeature])).not_runsTo
    (reaches_init_iff.2 ⟨_, List.mem_singleton_self _, _, List.mem_singleton_self _, by decide⟩)
    hrun

end Svoe
