import Svoe.Backtester.BuyLowSellHigh

/-!
# Events without a feature

`on_data_udf` looks for a feature of each instrument in the event and updates the instrument's state
with its price.  After the loop it raises if `feature` is empty, which is what the last instrument
has.

* `getFeatureForInstrument_cases` : what is found for an instrument.
* `onDataLoop_spec` : when the loop raises, and what it returns.
* `exists_run_onDataUdf` : what it leaves behind is what a run of price updates does.
* `missingFeatureExact_iff` : when the error is raised exactly if no instrument has a feature.
-/

namespace Svoe

namespace Backtester

open Raising

/-! ### Events of data -/

/-- The error of an event with two features of an instrument.  The source goes on with the event,
whose text has the hashes of its features. -/
def moreThanOneFeature (instrument : Instrument) : PyError :=
  .value ("Found more then one feature for instrument " ++ instrument.text)

/-- One round of the loop of `get_feature_for_instrument`. -/
def matchFeature (instrument : Instrument) (found : Option Feature) (feature : Feature) :
    Except PyError (Option Feature) := do
  let instr ← Generator.getInstrumentForFeature feature
  if instr = instrument then
    if found.isSome then .error (moreThanOneFeature instrument)
    else return some feature
  else return found

/-- `get_feature_for_instrument`, without a `feature_definition`. -/
def getFeatureForInstrument (dataEvent : DataStreamEvent) (instrument : Instrument) :
    Except PyError (Option Feature) :=
  (dataEvent.featureValues.map Prod.fst).foldlM (matchFeature instrument) none

/-- `data_event.feature_values[feature]['mid_price']`. -/
def getMidPrice (dataEvent : DataStreamEvent) (feature : Feature) : Except PyError ℚ :=
  match dictGet dataEvent.featureValues feature with
  | some event => event.value "mid_price"
  | none => .error (.key "feature")

/-- The loop of `on_data_udf`, with `feature` and `all_orders`. -/
def onDataLoop (dataEvent : DataStreamEvent) : List Instrument → Option Feature → List Order →
    Raising BuyLowSellHigh PyError (Option Feature × List Order)
  | [], feature, allOrders => return (feature, allOrders)
  | instrument :: instruments, _, allOrders => do
    match ← lift (getFeatureForInstrument dataEvent instrument) with
    | none => onDataLoop dataEvent instruments none allOrders
    | some feature => do
      let midPrice ← lift (getMidPrice dataEvent feature)
      let s ← get
      match dictGet s.states instrument with
      | none => lift (.error (.key "instrument"))
      | some st => do
        let orders ← onPriceUpdate instrument st midPrice
        onDataLoop dataEvent instruments (some feature) (allOrders ++ orders.getD [])

/-- The error of an event without a feature.  The source goes on with the event, whose text has the
hashes of its features, and the instruments. -/
def missingFeature : PyError :=
  .value "Unable to find feature for any of the provided instruments"

/-- `on_data_udf`. -/
def onDataUdf (dataEvent : DataStreamEvent) : Raising BuyLowSellHigh PyError (List Order) := do
  let s ← get
  let (feature, allOrders) ← onDataLoop dataEvent (s.states.map Prod.fst) none []
  if feature = none then lift (.error missingFeature) else return allOrders

/-! ### What is found for an instrument -/

/-- The feature belongs to the instrument. -/
def IsFeatureOf (instrument : Instrument) (feature : Feature) : Prop :=
  Generator.getInstrumentForFeature feature = .ok instrument

instance (instrument : Instrument) (feature : Feature) :
    Decidable (IsFeatureOf instrument feature) :=
  inferInstanceAs (Decidable (Generator.getInstrumentForFeature feature = .ok instrument))

/-- The instrument has a feature in the event. -/
def HasFeature (dataEvent : DataStreamEvent) (instrument : Instrument) : Prop :=
  ∃ feature ∈ dataEvent.featureValues.map Prod.fst, IsFeatureOf instrument feature

/-- No feature, or more than one, can be told to be the one of the instrument. -/
def Ambiguous (dataEvent : DataStreamEvent) (instrument : Instrument) : Prop :=
  (∃ feature ∈ dataEvent.featureValues.map Prod.fst,
    ∀ instr, ¬ IsFeatureOf instr feature) ∨
  1 < (dataEvent.featureValues.map Prod.fst).countP fun feature => IsFeatureOf instrument feature

/-- The event makes the loop raise at an instrument in the state `st`: it is not clear which feature
it has, the feature has no price, or it is to be bought for nothing. -/
def FaultyAt (dataEvent : DataStreamEvent) (instrument : Instrument) (st : StatePerInstrument) :
    Prop :=
  Ambiguous dataEvent instrument ∨
  ∃ feature ∈ dataEvent.featureValues.map Prod.fst, IsFeatureOf instrument feature ∧
    ((∀ midPrice, getMidPrice dataEvent feature ≠ .ok midPrice) ∨
      getMidPrice dataEvent feature = .ok 0 ∧ (st.observe 0).signal 0 = some .buy)

/-- The error is raised exactly if no instrument has a feature, and has changed nothing then. -/
def MissingFeatureExact (dataEvent : DataStreamEvent) (s : BuyLowSellHigh) : Prop :=
  ((onDataUdf dataEvent s).1 = .error missingFeature ↔
      ∀ instrument ∈ s.states.map Prod.fst, ¬ HasFeature dataEvent instrument) ∧
    ((onDataUdf dataEvent s).1 = .error missingFeature → (onDataUdf dataEvent s).2 = s)

variable {dataEvent : DataStreamEvent} {instrument : Instrument} {st : StatePerInstrument}
  {feature : Feature} {e : PyError}

theorem bind_eq_error_iff {ε α β : Type} {x : Except ε α} {f : α → Except ε β} {e : ε} :
    x >>= f = .error e ↔ x = .error e ∨ ∃ a, x = .ok a ∧ f a = .error e := by
  cases x with
  | error e' =>
    constructor
    · intro h
      obtain rfl := Except.error.inj h
      exact .inl rfl
    · rintro (h | ⟨a, h, -⟩)
      · obtain rfl := Except.error.inj h
        rfl
      · cases h
  | ok a =>
    constructor
    · exact fun h => .inr ⟨a, rfl, h⟩
    · rintro (h | ⟨a', h, hf⟩)
      · cases h
      · obtain rfl := Except.ok.inj h
        exact hf

theorem moreThanOneFeature_ne (instrument : Instrument) :
    moreThanOneFeature instrument ≠ missingFeature := by
  intro h
  have htext := congrArg String.toList (PyError.value.inj h)
  rw [String.toList_append] at htext
  exact absurd (List.cons.inj htext).1 (by decide)

theorem getParam_error_ne {data : Source} {key : String}
    (h : Generator.getParam data key = .error e) : e ≠ missingFeature := by
  unfold Generator.getParam at h
  cases hget : dictGet data.params key with
  | none =>
    rw [hget] at h
    obtain rfl := Except.error.inj h
    nofun
  | some v =>
    rw [hget] at h
    cases h

theorem getInstrumentForFeature_error_ne
    (h : Generator.getInstrumentForFeature feature = .error e) : e ≠ missingFeature := by
  simp only [Generator.getInstrumentForFeature, bind_eq_error_iff] at h
  rcases h with h | ⟨_, -, h | ⟨_, -, h | ⟨_, -, h⟩⟩⟩
  · exact getParam_error_ne h
  · exact getParam_error_ne h
  · exact getParam_error_ne h
  · cases h

/-- Not every feature belongs to an instrument, or more than one belongs to this one, if `found` was
found before them. -/
def AmbiguousIn (instrument : Instrument) (found : Option Feature) (features : List Feature) :
    Prop :=
  (∃ feature ∈ features, ∀ instr, ¬ IsFeatureOf instr feature) ∨
    1 < found.toList.length + features.countP fun feature => IsFeatureOf instrument feature

theorem matchFeature_of_error {found : Option Feature}
    (h : Generator.getInstrumentForFeature feature = .error e) :
    matchFeature instrument found feature = .error e := by
  rw [matchFeature, h]
  rfl

theorem matchFeature_of_not {instr : Instrument} {found : Option Feature}
    (h : Generator.getInstrumentForFeature feature = .ok instr) (hne : instr ≠ instrument) :
    matchFeature instrument found feature = .ok found := by
  rw [matchFeature, h]
  exact if_neg hne

theorem matchFeature_of_isFeatureOf {found : Option Feature} (h : IsFeatureOf instrument feature) :
    matchFeature instrument found feature =
      if found.isSome then .error (moreThanOneFeature instrument) else .ok (some feature) := by
  rw [matchFeature, h]
  exact if_pos rfl

/-- A feature of another instrument decides nothing. -/
theorem ambiguousIn_cons_of_not {instr : Instrument} {found : Option Feature}
    {features : List Feature} (h : IsFeatureOf instr feature)
    (hnot : ¬ IsFeatureOf instrument feature) :
    AmbiguousIn instrument found (feature :: features) ↔ AmbiguousIn instrument found features := by
  have hsome : ¬ ∀ i, ¬ IsFeatureOf i feature := fun hnone => hnone instr h
  rw [AmbiguousIn, AmbiguousIn, List.exists_mem_cons_iff, or_iff_right hsome,
    List.countP_cons_of_neg (by simpa using hnot)]

/-- The first feature of the instrument is found. -/
theorem ambiguousIn_none_cons {features : List Feature} (h : IsFeatureOf instrument feature) :
    AmbiguousIn instrument none (feature :: features) ↔
      AmbiguousIn instrument (some feature) features := by
  have hsome : ¬ ∀ i, ¬ IsFeatureOf i feature := fun hnone => hnone instrument h
  rw [AmbiguousIn, AmbiguousIn, List.exists_mem_cons_iff, or_iff_right hsome,
    List.countP_cons_of_pos (by simpa using h), Option.toList_some, Option.toList_none,
    List.length_singleton, List.length_nil, Nat.zero_add, Nat.add_comm]

/-- **The loop over the features** of an event raises, or finds the only one. -/
theorem foldlM_matchFeature (instrument : Instrument) (features : List Feature)
    (found : Option Feature) :
    (AmbiguousIn instrument found features ∧
      ∃ e, e ≠ missingFeature ∧ features.foldlM (matchFeature instrument) found = .error e) ∨
    (¬ AmbiguousIn instrument found features ∧
      features.foldlM (matchFeature instrument) found =
        .ok (found.or (features.find? fun feature => IsFeatureOf instrument feature))) := by
  induction features generalizing found with
  | nil =>
    refine .inr ⟨?_, by cases found <;> rfl⟩
    rintro (⟨_, hmem, -⟩ | hlt)
    · cases hmem
    · cases found <;> simp at hlt
  | cons feature features ih =>
    rw [List.foldlM_cons]
    cases hinstr : Generator.getInstrumentForFeature feature with
    | error e =>
      rw [matchFeature_of_error hinstr]
      refine .inl ⟨.inl ⟨feature, List.mem_cons_self, fun instr h => ?_⟩, e,
        getInstrumentForFeature_error_ne hinstr, rfl⟩
      rw [IsFeatureOf, hinstr] at h
      cases h
    | ok instr =>
      by_cases heq : instr = instrument
      · subst heq
        have hof : IsFeatureOf instr feature := hinstr
        rw [matchFeature_of_isFeatureOf hof]
        cases found with
        | some other =>
          refine .inl ⟨.inr ?_, moreThanOneFeature instr, moreThanOneFeature_ne instr, rfl⟩
          rw [List.countP_cons_of_pos (by simpa using hof), Option.toList_some,
            List.length_singleton]
          omega
        | none =>
          rw [ambiguousIn_none_cons hof, List.find?_cons_of_pos (by simpa using hof)]
          exact ih (some feature)
      · have hnot : ¬ IsFeatureOf instrument feature := by
          rw [IsFeatureOf, hinstr, Except.ok.injEq]
          exact heq
        rw [matchFeature_of_not hinstr heq, ambiguousIn_cons_of_not hinstr hnot,
          List.find?_cons_of_neg (by simpa using hnot)]
        exact ih found

theorem ambiguous_iff :
    Ambiguous dataEvent instrument ↔
      AmbiguousIn instrument none (dataEvent.featureValues.map Prod.fst) := by
  rw [Ambiguous, AmbiguousIn, Option.toList_none, List.length_nil, Nat.zero_add]

theorem eq_of_countP_le_one {α : Type} {P : α → Prop} [DecidablePred P] {l : List α} {x y : α}
    (h : l.countP (fun x => P x) ≤ 1) (hx : x ∈ l) (hPx : P x) (hy : y ∈ l) (hPy : P y) :
    x = y := by
  rw [List.countP_eq_length_filter] at h
  have hxf : x ∈ l.filter fun x => P x := List.mem_filter.2 ⟨hx, by simpa using hPx⟩
  have hyf : y ∈ l.filter fun x => P x := List.mem_filter.2 ⟨hy, by simpa using hPy⟩
  rcases hl : l.filter fun x => P x with _ | ⟨z, _ | ⟨w, zs⟩⟩
  · rw [hl] at hxf
    cases hxf
  · rw [hl] at hxf hyf
    rw [List.mem_singleton.1 hxf, List.mem_singleton.1 hyf]
  · rw [hl] at h
    simp at h

/-- The event has one feature of the instrument. -/
structure OnlyFeature (dataEvent : DataStreamEvent) (instrument : Instrument) (feature : Feature) :
    Prop where
  mem : feature ∈ dataEvent.featureValues.map Prod.fst
  isFeatureOf : IsFeatureOf instrument feature
  eq : ∀ other ∈ dataEvent.featureValues.map Prod.fst, IsFeatureOf instrument other →
    other = feature

/-- **What is found for an instrument.** -/
theorem getFeatureForInstrument_cases (dataEvent : DataStreamEvent) (instrument : Instrument) :
    (Ambiguous dataEvent instrument ∧
        ∃ e, e ≠ missingFeature ∧ getFeatureForInstrument dataEvent instrument = .error e) ∨
      ¬ Ambiguous dataEvent instrument ∧
        (¬ HasFeature dataEvent instrument ∧
            getFeatureForInstrument dataEvent instrument = .ok none ∨
          ∃ feature, OnlyFeature dataEvent instrument feature ∧
            getFeatureForInstrument dataEvent instrument = .ok (some feature)) := by
  rw [ambiguous_iff]
  refine (foldlM_matchFeature instrument (dataEvent.featureValues.map Prod.fst) none).imp_right ?_
  rintro ⟨hnot, hloop⟩
  refine ⟨hnot, ?_⟩
  rw [← ambiguous_iff, Ambiguous, not_or, not_lt] at hnot
  rw [Option.none_or] at hloop
  cases hfind : (dataEvent.featureValues.map Prod.fst).find?
      fun feature => IsFeatureOf instrument feature with
  | none =>
    refine .inl ⟨?_, hloop.trans (congrArg Except.ok hfind)⟩
    rintro ⟨feature, hmem, hof⟩
    exact List.find?_eq_none.1 hfind feature hmem (by simpa using hof)
  | some feature =>
    have hof : IsFeatureOf instrument feature := by simpa using List.find?_some hfind
    have hmem := List.mem_of_find?_eq_some hfind
    exact .inr ⟨feature, ⟨hmem, hof, fun other hother hof' =>
      eq_of_countP_le_one hnot.2 hother hof' hmem hof⟩, hloop.trans (congrArg Except.ok hfind)⟩

theorem getMidPrice_error_ne (h : getMidPrice dataEvent feature = .error e) :
    e ≠ missingFeature := by
  unfold getMidPrice DataEvent.value at h
  split at h
  · split at h
    · split_ifs at h
      obtain rfl := Except.error.inj h
      nofun
    · obtain rfl := Except.error.inj h
      nofun
  · obtain rfl := Except.error.inj h
    nofun

/-! ### The loop over the instruments -/

variable {s t : BuyLowSellHigh} {assets : List AssetInstrument} {instruments : List Instrument}

/-- Nothing can be bought for a price of zero. -/
theorem onPriceUpdate_of_zero (instrument : Instrument) (s : BuyLowSellHigh)
    (hsignal : (st.observe 0).signal 0 = some .buy) :
    ∃ s', onPriceUpdate instrument st 0 s = (.error .zeroDivision, s') := by
  have hmake : ∀ s : Backtest, ((st.observe 0).reset .buy).makeOrder .buy 0 s =
      (.error .zeroDivision, s) := by
    intro s
    rw [StatePerInstrument.makeOrder, get_bind]
    dsimp only
    rw [divide, if_pos rfl, lift_error_bind]
  unfold onPriceUpdate
  rw [hsignal]
  exact ⟨_, (modify_bind _ _).trans (bind_of_error (trade_of_eq (hmake _)))⟩

/-- Every instrument has its state. -/
def HasStates (assets : List AssetInstrument) (instruments : List Instrument)
    (s : BuyLowSellHigh) : Prop :=
  ∀ instrument ∈ instruments, ∃ st, dictGet s.states instrument = some st ∧
    StateInv assets instrument st

/-- The event makes the loop raise at one of the instruments. -/
def Faulty (dataEvent : DataStreamEvent) (instruments : List Instrument) (s : BuyLowSellHigh) :
    Prop :=
  ∃ instrument ∈ instruments, ∃ st, dictGet s.states instrument = some st ∧
    FaultyAt dataEvent instrument st

theorem faulty_cons_iff (hst : dictGet s.states instrument = some st) :
    Faulty dataEvent (instrument :: instruments) s ↔
      FaultyAt dataEvent instrument st ∨ Faulty dataEvent instruments s := by
  rw [Faulty, List.exists_mem_cons_iff, ← Faulty, hst]
  simp

/-- The states of other instruments stay. -/
theorem faulty_congr (h : ∀ instrument ∈ instruments,
    dictGet t.states instrument = dictGet s.states instrument) :
    Faulty dataEvent instruments t ↔ Faulty dataEvent instruments s := by
  refine exists_congr fun instrument => and_congr_right fun hmem => ?_
  rw [h instrument hmem]

/-- What the loop returns: the feature of the last instrument, and the state as it was if no
instrument has a feature. -/
structure LoopReturns (dataEvent : DataStreamEvent) (instruments : List Instrument)
    (found : Option Feature) (s : BuyLowSellHigh) (feature : Option Feature) (s' : BuyLowSellHigh) :
    Prop where
  feature_of_nil : instruments = [] → feature = found
  feature_eq_none_iff : ∀ instrument, instruments.getLast? = some instrument →
    (feature = none ↔ ¬ HasFeature dataEvent instrument)
  unchanged : (∀ instrument ∈ instruments, ¬ HasFeature dataEvent instrument) → s' = s

/-- One instrument more before the others. -/
theorem LoopReturns.cons {found found' feature : Option Feature} {s₁ s' : BuyLowSellHigh}
    (h : LoopReturns dataEvent instruments found' s₁ feature s')
    (hfound : found' = none ↔ ¬ HasFeature dataEvent instrument)
    (hs : ¬ HasFeature dataEvent instrument → s₁ = s) :
    LoopReturns dataEvent (instrument :: instruments) found s feature s' := by
  refine ⟨fun h => absurd h (List.cons_ne_nil _ _), fun last hlast => ?_, fun hnone => ?_⟩
  · cases instruments with
    | nil =>
      obtain rfl := Option.some.inj hlast
      rw [h.feature_of_nil rfl]
      exact hfound
    | cons i instruments =>
      rw [List.getLast?_cons_cons] at hlast
      exact h.feature_eq_none_iff last hlast
  · obtain ⟨hfirst, hrest⟩ := List.forall_mem_cons.1 hnone
    rw [h.unchanged hrest, hs hfirst]

/-- What makes the loop raise at an instrument with one feature. -/
theorem OnlyFeature.faultyAt_iff (h : OnlyFeature dataEvent instrument feature)
    (hamb : ¬ Ambiguous dataEvent instrument) :
    FaultyAt dataEvent instrument st ↔
      (∀ midPrice, getMidPrice dataEvent feature ≠ .ok midPrice) ∨
        getMidPrice dataEvent feature = .ok 0 ∧ (st.observe 0).signal 0 = some .buy := by
  rw [FaultyAt, or_iff_right hamb]
  constructor
  · rintro ⟨other, hmem, hof, hother⟩
    rwa [h.eq other hmem hof] at hother
  · exact fun hfeature => ⟨feature, h.mem, h.isFeatureOf, hfeature⟩

/-- An instrument at which the event is faulty raises. -/
theorem onDataLoop_of_faultyAt {found : Option Feature} {allOrders : List Order}
    (hst : dictGet s.states instrument = some st) (hfaulty : FaultyAt dataEvent instrument st) :
    ∃ e s', e ≠ missingFeature ∧
      onDataLoop dataEvent (instrument :: instruments) found allOrders s = (.error e, s') := by
  rw [onDataLoop]
  rcases getFeatureForInstrument_cases dataEvent instrument with
    ⟨-, e, hne, hget⟩ | ⟨hamb, ⟨hnone, -⟩ | ⟨feature, honly, hget⟩⟩
  · rw [hget, lift_error_bind]
    exact ⟨e, s, hne, rfl⟩
  · rcases hfaulty with h | ⟨feature, hmem, hof, -⟩
    · exact absurd h hamb
    · exact absurd ⟨feature, hmem, hof⟩ hnone
  · rw [hget, lift_ok_bind]
    dsimp only
    cases hprice : getMidPrice dataEvent feature with
    | error e =>
      rw [lift_error_bind]
      exact ⟨e, s, getMidPrice_error_ne hprice, rfl⟩
    | ok midPrice =>
      rw [honly.faultyAt_iff hamb, hprice] at hfaulty
      obtain ⟨hzero, hsignal⟩ := hfaulty.resolve_left fun hnone => hnone midPrice rfl
      obtain rfl := Except.ok.inj hzero
      obtain ⟨s', hs'⟩ := onPriceUpdate_of_zero instrument s hsignal
      rw [lift_ok_bind, get_bind, hst]
      dsimp only
      rw [bind_of_error hs']
      exact ⟨.zeroDivision, s', nofun, rfl⟩

/-- An instrument without a feature is left out. -/
theorem onDataLoop_of_not_hasFeature {found : Option Feature} {allOrders : List Order}
    (hfaulty : ¬ FaultyAt dataEvent instrument st) (hnone : ¬ HasFeature dataEvent instrument) :
    onDataLoop dataEvent (instrument :: instruments) found allOrders s =
      onDataLoop dataEvent instruments none allOrders s := by
  rw [onDataLoop]
  rcases getFeatureForInstrument_cases dataEvent instrument with
    ⟨hamb, -⟩ | ⟨-, ⟨-, hget⟩ | ⟨feature, honly, -⟩⟩
  · exact absurd (.inl hamb) hfaulty
  · rw [hget, lift_ok_bind]
  · exact absurd ⟨feature, honly.mem, honly.isFeatureOf⟩ hnone

/-- An instrument with a feature gets its price. -/
theorem onDataLoop_of_hasFeature (instruments : List Instrument) (found : Option Feature)
    (allOrders : List Order) (h : HasAssets assets s.backtest)
    (hst : dictGet s.states instrument = some st)
    (hinv : StateInv assets instrument st) (hfaulty : ¬ FaultyAt dataEvent instrument st)
    (hhas : HasFeature dataEvent instrument) :
    ∃ feature midPrice orders backtest, HasAssets assets backtest ∧
      onDataLoop dataEvent (instrument :: instruments) found allOrders s =
        onDataLoop dataEvent instruments (some feature) (allOrders ++ orders)
          ⟨backtest, dictSet s.states instrument (st.updated midPrice)⟩ := by
  rw [onDataLoop]
  rcases getFeatureForInstrument_cases dataEvent instrument with
    ⟨hamb, -⟩ | ⟨hamb, ⟨hnone, -⟩ | ⟨feature, honly, hget⟩⟩
  · exact absurd (.inl hamb) hfaulty
  · exact absurd hhas hnone
  · rw [honly.faultyAt_iff hamb, not_or, not_and] at hfaulty
    cases hprice : getMidPrice dataEvent feature with
    | error e => exact absurd (fun midPrice => by rw [hprice]; exact nofun) hfaulty.1
    | ok midPrice =>
      have hne : (st.observe midPrice).signal midPrice = some .buy → midPrice ≠ 0 := by
        rintro hbuy rfl
        exact hfaulty.2 hprice hbuy
      obtain ⟨orders, backtest, hupdate, hfunds, -⟩ := onPriceUpdate_spec h hinv hne
      refine ⟨feature, midPrice, orders.getD [], backtest, hfunds, ?_⟩
      rw [hget, lift_ok_bind]
      dsimp only
      rw [hprice, lift_ok_bind, get_bind, hst]
      dsimp only
      rw [bind_of_ok hupdate]

/-- **The loop raises exactly if the event is faulty**, and never the error after it. -/
theorem onDataLoop_spec (instruments : List Instrument) (hnodup : instruments.Nodup)
    (found : Option Feature) (allOrders : List Order) (s : BuyLowSellHigh)
    (h : HasAssets assets s.backtest) (hstates : HasStates assets instruments s) :
    (Faulty dataEvent instruments s ∧ ∃ e s', e ≠ missingFeature ∧
        onDataLoop dataEvent instruments found allOrders s = (.error e, s')) ∨
      ¬ Faulty dataEvent instruments s ∧ ∃ feature orders s',
        onDataLoop dataEvent instruments found allOrders s = (.ok (feature, orders), s') ∧
          LoopReturns dataEvent instruments found s feature s' := by
  induction instruments generalizing found allOrders s with
  | nil =>
    refine .inr ⟨?_, found, allOrders, s, rfl, fun _ => rfl, nofun, fun _ => rfl⟩
    rintro ⟨_, hmem, -⟩
    cases hmem
  | cons instrument instruments ih =>
    obtain ⟨hnot, hnodup⟩ := List.nodup_cons.1 hnodup
    obtain ⟨⟨st, hst, hinv⟩, hrest⟩ := List.forall_mem_cons.1 hstates
    rw [faulty_cons_iff hst]
    by_cases hfaulty : FaultyAt dataEvent instrument st
    · exact .inl ⟨.inl hfaulty, onDataLoop_of_faultyAt hst hfaulty⟩
    rw [or_iff_right hfaulty]
    by_cases hhas : HasFeature dataEvent instrument
    · obtain ⟨feature, midPrice, orders, backtest, hfunds, hround⟩ :=
        onDataLoop_of_hasFeature instruments found allOrders h hst hinv hfaulty hhas
      have hsame : ∀ i ∈ instruments,
          dictGet (dictSet s.states instrument (st.updated midPrice)) i = dictGet s.states i := by
        intro i hi
        rw [dictGet_dictSet, if_neg]
        rintro rfl
        exact hnot hi
      have hstates' : HasStates assets instruments
          ⟨backtest, dictSet s.states instrument (st.updated midPrice)⟩ := by
        intro i hi
        rw [hsame i hi]
        exact hrest i hi
      rw [hround, ← faulty_congr
        (t := ⟨backtest, dictSet s.states instrument (st.updated midPrice)⟩) hsame]
      refine (ih hnodup (some feature) (allOrders ++ orders) _ hfunds hstates').imp_right ?_
      rintro ⟨hfaulty, feature', orders', s', hloop, hreturns⟩
      have hfound : some feature = none ↔ ¬ HasFeature dataEvent instrument :=
        iff_of_false (Option.some_ne_none feature) (not_not.2 hhas)
      exact ⟨hfaulty, feature', orders', s', hloop,
        hreturns.cons hfound fun hnone => absurd hhas hnone⟩
    · rw [onDataLoop_of_not_hasFeature hfaulty hhas]
      refine (ih hnodup none allOrders s h hrest).imp_right ?_
      rintro ⟨hfaulty, feature, orders, s', hloop, hreturns⟩
      exact ⟨hfaulty, feature, orders, s', hloop,
        hreturns.cons (iff_of_true rfl hhas) fun _ => rfl⟩

/-- The loop is a run of price updates, up to where it raises. -/
theorem exists_run_onDataLoop
    (hprices : ∀ feature midPrice, getMidPrice dataEvent feature = .ok midPrice → 0 < midPrice)
    (instruments : List Instrument) (found : Option Feature) (allOrders : List Order)
    (s : BuyLowSellHigh) (updates : List PriceUpdate) :
    ∃ actions updates', (∀ action ∈ actions, action.Ok) ∧
      Transition.run tradingStep ⟨s, updates⟩ actions =
        some ⟨(onDataLoop dataEvent instruments found allOrders s).2, updates'⟩ := by
  induction instruments generalizing found allOrders s updates with
  | nil => exact ⟨[], updates, nofun, rfl⟩
  | cons instrument instruments ih =>
    rw [onDataLoop]
    cases hget : getFeatureForInstrument dataEvent instrument with
    | error e => exact ⟨[], updates, nofun, rfl⟩
    | ok feature =>
      rw [lift_ok_bind]
      cases feature with
      | none => exact ih none allOrders s updates
      | some feature =>
        dsimp only
        cases hprice : getMidPrice dataEvent feature with
        | error e => exact ⟨[], updates, nofun, rfl⟩
        | ok midPrice =>
          rw [lift_ok_bind, get_bind]
          cases hst : dictGet s.states instrument with
          | none => exact ⟨[], updates, nofun, rfl⟩
          | some st =>
            dsimp only
            have hok : (TradingAction.priceUpdate instrument midPrice).Ok :=
              hprices feature midPrice hprice
            have hstep : tradingStep ⟨s, updates⟩ (.priceUpdate instrument midPrice) =
                some ⟨(onPriceUpdate instrument st midPrice s).2, updates ++
                  [⟨instrument, midPrice, (onPriceUpdate instrument st midPrice s).1⟩]⟩ := by
              rw [tradingStep, hst]
              rfl
            rcases hupdate : onPriceUpdate instrument st midPrice s with ⟨e | orders, s'⟩
            · rw [hupdate] at hstep
              rw [bind_of_error hupdate]
              exact ⟨[_], _, List.forall_mem_singleton.2 hok,
                Transition.run_cons_eq_some_iff.2 ⟨_, hstep, rfl⟩⟩
            · rw [hupdate] at hstep
              rw [bind_of_ok hupdate]
              obtain ⟨actions, updates', hall, hrun⟩ :=
                ih (some feature) (allOrders ++ orders.getD []) s' _
              exact ⟨_ :: actions, updates', List.forall_mem_cons.2 ⟨hok, hall⟩,
                Transition.run_cons_eq_some_iff.2 ⟨_, hstep, hrun⟩⟩

/-- **What `on_data_udf` leaves behind** is what a run of price updates does. -/
theorem exists_run_onDataUdf
    (hprices : ∀ feature midPrice, getMidPrice dataEvent feature = .ok midPrice → 0 < midPrice)
    (s : BuyLowSellHigh) (updates : List PriceUpdate) :
    ∃ actions updates', (∀ action ∈ actions, action.Ok) ∧
      Transition.run tradingStep ⟨s, updates⟩ actions =
        some ⟨(onDataUdf dataEvent s).2, updates'⟩ := by
  have hstate : (onDataUdf dataEvent s).2 =
      (onDataLoop dataEvent (s.states.map Prod.fst) none [] s).2 := by
    rw [onDataUdf, get_bind]
    rcases hloop : onDataLoop dataEvent (s.states.map Prod.fst) none [] s with
      ⟨e | ⟨feature, orders⟩, s'⟩
    · rw [bind_of_error hloop]
    · rw [bind_of_ok hloop]
      cases feature <;> rfl
  rw [hstate]
  exact exists_run_onDataLoop hprices (s.states.map Prod.fst) none [] s updates

/-! ### The error -/

/-- The last instrument has a feature, or else the event is faulty exactly if some instrument has
one. -/
def LastDecides (dataEvent : DataStreamEvent) (s : BuyLowSellHigh) : Prop :=
  (∃ instrument, (s.states.map Prod.fst).getLast? = some instrument ∧
      HasFeature dataEvent instrument) ∨
    ((∃ instrument ∈ s.states.map Prod.fst, HasFeature dataEvent instrument) ↔
      Faulty dataEvent (s.states.map Prod.fst) s)

/-- **When the error is raised**: the loop does not raise, and the last instrument has no feature.
-/
theorem onDataUdf_missing_iff (dataEvent : DataStreamEvent)
    (hnodup : (s.states.map Prod.fst).Nodup)
    (h : HasAssets assets s.backtest) (hstates : HasStates assets (s.states.map Prod.fst) s) :
    ((onDataUdf dataEvent s).1 = .error missingFeature ↔
        ¬ Faulty dataEvent (s.states.map Prod.fst) s ∧
          ¬ ∃ instrument, (s.states.map Prod.fst).getLast? = some instrument ∧
            HasFeature dataEvent instrument) ∧
      ((onDataUdf dataEvent s).1 = .error missingFeature →
        (∀ instrument ∈ s.states.map Prod.fst, ¬ HasFeature dataEvent instrument) →
          (onDataUdf dataEvent s).2 = s) := by
  rw [onDataUdf, get_bind]
  rcases onDataLoop_spec (s.states.map Prod.fst) hnodup none [] s h hstates with
    ⟨hfaulty, e, s', hne, hloop⟩ | ⟨hfaulty, feature, orders, s', hloop, hreturns⟩
  · rw [bind_of_error hloop]
    have hraise : (.error e : Except PyError (List Order)) ≠ .error missingFeature :=
      fun heq => hne (Except.error.inj heq)
    exact ⟨iff_of_false hraise fun hand => hand.1 hfaulty, fun heq => absurd heq hraise⟩
  · rw [bind_of_ok hloop, and_iff_right hfaulty]
    have hlast : feature = none ↔
        ¬ ∃ instrument, (s.states.map Prod.fst).getLast? = some instrument ∧
          HasFeature dataEvent instrument := by
      cases hkeys : (s.states.map Prod.fst).getLast? with
      | none =>
        rw [List.getLast?_eq_none_iff] at hkeys
        exact iff_of_true (hreturns.feature_of_nil hkeys) (by simp)
      | some instrument => simpa using hreturns.feature_eq_none_iff instrument hkeys
    rw [← hlast]
    cases feature with
    | none => exact ⟨iff_of_true rfl rfl, fun _ hnone => hreturns.unchanged hnone⟩
    | some feature => exact ⟨iff_of_false nofun nofun, nofun⟩

theorem missingFeatureExact_of_inv {buyThresh sellThresh : ℚ} {s₁ : Trading}
    (hinv : TradingInv assets instruments buyThresh sellThresh s₁) :
    MissingFeatureExact dataEvent s₁.strategy ↔ LastDecides dataEvent s₁.strategy := by
  have hstates : HasStates assets (s₁.strategy.states.map Prod.fst) s₁.strategy := by
    intro i hi
    cases hst : dictGet s₁.strategy.states i with
    | none => exact absurd hi (dictGet_eq_none_iff.1 hst)
    | some st => exact ⟨st, rfl, (hinv.states i st hst).1⟩
  obtain ⟨hraise, hunchanged⟩ :=
    onDataUdf_missing_iff dataEvent hinv.keys_nodup hinv.funds hstates
  rw [MissingFeatureExact, LastDecides]
  by_cases hlast : ∃ instrument, (s₁.strategy.states.map Prod.fst).getLast? = some instrument ∧
      HasFeature dataEvent instrument
  · have hsome : ¬ ∀ i ∈ s₁.strategy.states.map Prod.fst, ¬ HasFeature dataEvent i := by
      obtain ⟨i, hi, hhas⟩ := hlast
      exact fun hnone => hnone i (List.mem_of_getLast? hi) hhas
    rw [hraise]
    exact iff_of_true ⟨iff_of_false (fun hand => hand.2 hlast) hsome,
      fun hand => absurd hlast hand.2⟩ (.inl hlast)
  · rw [or_iff_right hlast]
    have hmissing : (onDataUdf dataEvent s₁.strategy).1 = .error missingFeature ↔
        ¬ Faulty dataEvent (s₁.strategy.states.map Prod.fst) s₁.strategy :=
      hraise.trans (and_iff_left hlast)
    have hnone : (∀ i ∈ s₁.strategy.states.map Prod.fst, ¬ HasFeature dataEvent i) ↔
        ¬ ∃ i ∈ s₁.strategy.states.map Prod.fst, HasFeature dataEvent i := by
      push Not
      rfl
    rw [hnone] at hunchanged ⊢
    constructor
    · rintro ⟨hiff, -⟩
      exact (not_iff_not.1 (hmissing.symm.trans hiff)).symm
    · intro hiff
      have hexact := hmissing.trans (not_congr hiff.symm)
      exact ⟨hexact, fun herror => hunchanged herror (hexact.1 herror)⟩

/-- **The error is raised exactly if no instrument has a feature**, after any run and for any event,
if and only if the last instrument decides. -/
theorem missingFeatureExact_iff {portfolio : Portfolio} {params : List (String × ℚ)} {now : ℚ}
    {midPrices : List (Instrument × ℚ)} {states : List (Instrument × StatePerInstrument)}
    {buyThresh sellThresh : ℚ} {actions : List TradingAction} {s₁ : Trading}
    (hstates : initStates portfolio params instruments = .ok states)
    (hassets : (portfolio.wallets.map Wallet.assetInstrument).Nodup)
    (hwallets : ∀ w ∈ portfolio.wallets, 0 ≤ w.balance ∧ w.locked = ∅)
    (hmid : ∀ p ∈ midPrices, 0 < p.2)
    (hbuy : dictGet params "sell_signal_thresh" = some buyThresh)
    (hsell : dictGet params "buy_signal_thresh" = some sellThresh)
    (hok : ∀ action ∈ actions, action.Ok)
    (hrun : Transition.run tradingStep (startTrading portfolio now midPrices states) actions =
      some s₁) (dataEvent : DataStreamEvent) :
    MissingFeatureExact dataEvent s₁.strategy ↔ LastDecides dataEvent s₁.strategy :=
  missingFeatureExact_of_inv
    (tradingInv_of_run hok (tradingInv_start hstates hassets hwallets hmid hbuy hsell) hrun)

/-- A price of the first instrument only. -/
def firstPriceOnly : DataStreamEvent :=
  ⟨1, 1, [(.source ⟨"SyntheticSineMidPrice",
    [("exchange", "BINANCE"), ("instrument_type", "spot"), ("symbol", "BTC-USDT")]⟩,
    .midPrice ⟨1, 1, 30⟩)]⟩

theorem missingFeatureExact_iff_coins : ∃ s : Trading,
    s.updates.length = 5 ∧ (MissingFeatureExact firstPriceOnly s.strategy ↔
      LastDecides firstPriceOnly s.strategy) := by
  obtain ⟨states, s, hstates, hrun, hmade⟩ := exists_run_coins
  refine ⟨s, ?_, missingFeatureExact_iff hstates (by decide +kernel) coinPortfolio_unlocked
    (by simp) coinParams_thresh.1 coinParams_thresh.2 coinActions_ok hrun firstPriceOnly⟩
  simpa using congrArg List.length hmade

/-- The error is raised though the first instrument has a feature. -/
theorem not_missingFeatureExact_firstPriceOnly : ∃ states,
    initStates coinPortfolio coinParams coinInstruments = .ok states ∧
      ¬ MissingFeatureExact firstPriceOnly ⟨initial coinPortfolio 0 [], states⟩ := by
  have hdemo : (initStates coinPortfolio coinParams coinInstruments).map (fun states =>
      ((onDataUdf firstPriceOnly ⟨initial coinPortfolio 0 [], states⟩).1, states.map Prod.fst)) =
      .ok (.error missingFeature, coinInstruments) := by
    decide +kernel
  obtain ⟨states, hstates, heq⟩ := map_eq_ok_iff.1 hdemo
  obtain ⟨hraise, hkeys⟩ := Prod.mk.inj heq
  refine ⟨states, hstates, fun hexact => ?_⟩
  have hnone := hexact.1.1 hraise demoInstrument (by rw [hkeys]; exact List.mem_cons_self)
  exact hnone ⟨_, List.mem_cons_self, by decide +kernel⟩

end Backtester

end Svoe
