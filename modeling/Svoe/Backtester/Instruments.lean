import Svoe.Backtester.Value

/-!
# Instruments and their assets

`to_asset_instruments` takes the first two of the dash-separated parts of a symbol, and
`from_asset_instruments` joins two assets.  Symbols of derivatives have a third part, and lose it.

* `roundTrips_iff` : an instrument comes back exactly if its symbol has two parts.
* `priceOf_eq` : then a snapshot finds its price.
* `instrumentsRoundTrip_iff` : the same for a set of instruments, with what depends on it.
-/

namespace Svoe

namespace Backtester

variable {i : Instrument} {S : Set Instrument}

/-- The parts of a symbol. -/
def symbolParts (symbol : String) : List String := (symbol.toList.splitOn '-').map String.ofList

/-- `from_asset_instruments(*i.to_asset_instruments()) == i`. -/
def RoundTrips (i : Instrument) : Prop :=
  ∃ base quote, toAssetInstruments i = .ok (base, quote) ∧ fromAssetInstruments base quote = .ok i

theorem toAssetInstruments_eq_ok_iff {base quote : AssetInstrument} :
    toAssetInstruments i = .ok (base, quote) ↔
      ∃ rest, symbolParts i.symbol = base.asset :: quote.asset :: rest ∧
        base = ⟨i.exchange, i.instrumentType, base.asset⟩ ∧
        quote = ⟨i.exchange, i.instrumentType, quote.asset⟩ := by
  rw [toAssetInstruments, parseSymbol, ← symbolParts]
  rcases symbolParts i.symbol with _ | ⟨b, _ | ⟨q, rest⟩⟩
  · exact iff_of_false (fun h => by cases h) (by simp)
  · exact iff_of_false (fun h => by cases h) (by simp)
  · cases base
    cases quote
    constructor
    · intro h
      cases h
      exact ⟨rest, rfl, rfl, rfl⟩
    · rintro ⟨rest', hparts, hbase, hquote⟩
      obtain ⟨rfl, rfl, rfl⟩ : _ ∧ _ ∧ _ := by simpa using hparts
      rw [hbase, hquote]
      rfl

theorem fromAssetInstruments_eq_ok_iff {base quote : AssetInstrument} :
    fromAssetInstruments base quote = .ok i ↔
      base.exchange = quote.exchange ∧ base.instrumentType = quote.instrumentType ∧
        i = ⟨base.exchange, base.instrumentType, composeSymbol base.asset quote.asset⟩ := by
  unfold fromAssetInstruments
  split_ifs with hexchange htype
  · exact iff_of_false nofun fun h => hexchange h.1
  · exact iff_of_false nofun fun h => htype h.2.1
  · simp [not_not.1 hexchange, not_not.1 htype, eq_comm]

/-- Joining the parts gives the symbol. -/
theorem symbol_eq_compose_iff {symbol base quote : String} {rest : List String}
    (h : symbolParts symbol = base :: quote :: rest) :
    symbol = composeSymbol base quote ↔ rest = [] := by
  have hparts : symbol.toList.splitOn '-' =
      base.toList :: quote.toList :: rest.map String.toList := by
    have hmap := congrArg (List.map String.toList) h
    rw [symbolParts, List.map_map] at hmap
    simpa [Function.comp_def] using hmap
  have hsymbol : symbol.toList =
      ['-'].intercalate (base.toList :: quote.toList :: rest.map String.toList) := by
    rw [← hparts, List.intercalate_splitOn]
  have hcompose : (composeSymbol base quote).toList = base.toList ++ '-' :: quote.toList := by
    simp [composeSymbol]
  rw [← String.toList_inj, hsymbol, hcompose]
  cases rest with
  | nil => simp [List.intercalate]
  | cons r rest =>
    refine iff_of_false (fun heq => ?_) (List.cons_ne_nil r rest)
    have hlength := congrArg List.length heq
    simp [List.intercalate] at hlength

/-- Two joined assets have two parts only if they have no dashes. -/
theorem symbolParts_compose {base quote : String}
    (h : (symbolParts (composeSymbol base quote)).length = 2) :
    symbolParts (composeSymbol base quote) = [base, quote] := by
  have hsplit : (composeSymbol base quote).toList.splitOn '-' =
      base.toList.splitOn '-' ++ quote.toList.splitOn '-' := by
    rw [← List.splitOn_append_cons_self]
    simp [composeSymbol]
  have hone : ∀ l : List Char, (l.splitOn '-').length = 1 → l.splitOn '-' = [l] := by
    intro l hl
    obtain ⟨part, hpart⟩ := List.length_eq_one_iff.1 hl
    have hjoin : ['-'].intercalate (l.splitOn '-') = l := List.intercalate_splitOn '-'
    rw [hpart] at hjoin ⊢
    simpa [List.intercalate] using hjoin
  have hpos : ∀ l : List Char, 0 < (l.splitOn '-').length :=
    fun l => List.length_pos_iff.2 (List.splitOn_ne_nil '-' l)
  rw [symbolParts, hsplit, List.length_map, List.length_append] at h
  have hbase := hpos base.toList
  have hquote := hpos quote.toList
  rw [symbolParts, hsplit, hone base.toList (by omega), hone quote.toList (by omega)]
  simp

/-- **An instrument comes back exactly if its symbol has two parts.** -/
theorem roundTrips_iff (h : 2 ≤ (symbolParts i.symbol).length) :
    RoundTrips i ↔ (symbolParts i.symbol).length = 2 := by
  obtain ⟨b, q, rest, hparts⟩ : ∃ b q rest, symbolParts i.symbol = b :: q :: rest := by
    revert h
    rcases symbolParts i.symbol with _ | ⟨b, _ | ⟨q, rest⟩⟩
    · exact fun h => absurd h (by simp)
    · exact fun h => absurd h (by simp)
    · exact fun _ => ⟨b, q, rest, rfl⟩
  have hassets : toAssetInstruments i =
      .ok (⟨i.exchange, i.instrumentType, b⟩, ⟨i.exchange, i.instrumentType, q⟩) :=
    toAssetInstruments_eq_ok_iff.2 ⟨rest, hparts, rfl, rfl⟩
  have hlength : (symbolParts i.symbol).length = 2 ↔ rest = [] := by
    rw [hparts]
    simp
  rw [hlength, ← symbol_eq_compose_iff hparts]
  constructor
  · rintro ⟨base, quote, hto, hfrom⟩
    rw [hassets] at hto
    cases hto
    exact congrArg Instrument.symbol (fromAssetInstruments_eq_ok_iff.1 hfrom).2.2
  · intro hsymbol
    refine ⟨_, _, hassets, fromAssetInstruments_eq_ok_iff.2 ⟨rfl, rfl, ?_⟩⟩
    rw [← hsymbol]

/-- The assets of an instrument with two parts that was joined from assets. -/
theorem toAssetInstruments_of_from {base quote : AssetInstrument}
    (hfrom : fromAssetInstruments base quote = .ok i)
    (h : (symbolParts i.symbol).length = 2) : toAssetInstruments i = .ok (base, quote) := by
  obtain ⟨hexchange, htype, rfl⟩ := fromAssetInstruments_eq_ok_iff.1 hfrom
  refine toAssetInstruments_eq_ok_iff.2 ⟨[], symbolParts_compose h, rfl, ?_⟩
  cases quote
  simp_all

/-! ### Prices of wallets -/

/-- The mid price of the priced instrument that an asset and the quote asset are the assets of. -/
def pricedAt (midPrices : List (Instrument × ℚ)) (quote a : AssetInstrument) : ℚ :=
  if a = quote then 1
  else ((midPrices.find? fun e => toAssetInstruments e.1 = .ok (a, quote)).map Prod.snd).getD 0

/-- A snapshot finds the prices of instruments with two parts. -/
theorem priceOf_eq {midPrices : List (Instrument × ℚ)} (hkeys : (midPrices.map Prod.fst).Nodup)
    (hparts : ∀ e ∈ midPrices, (symbolParts e.1.symbol).length = 2) (quote a : AssetInstrument) :
    priceOf midPrices quote a = pricedAt midPrices quote a := by
  unfold priceOf pricedAt
  split_ifs with ha
  · rfl
  · cases hfind : midPrices.find? fun e => toAssetInstruments e.1 = .ok (a, quote) with
    | some e =>
      have he := List.mem_of_find?_eq_some hfind
      have hassets : toAssetInstruments e.1 = .ok (a, quote) := by
        simpa using List.find?_some hfind
      obtain ⟨base, quote', hto, hfrom⟩ :=
        (roundTrips_iff (hparts e he).ge).2 (hparts e he)
      rw [hassets] at hto
      cases hto
      rw [hfrom]
      simp [(dictGet_eq_some_iff hkeys).2 he]
    | none =>
      cases hfrom : fromAssetInstruments a quote with
      | error e => rfl
      | ok instrument =>
        cases hget : dictGet midPrices instrument with
        | none => simp [hget]
        | some price =>
          have he := (dictGet_eq_some_iff hkeys).1 hget
          refine absurd ?_ (List.find?_eq_none.1 hfind _ he)
          exact decide_eq_true (toAssetInstruments_of_from hfrom (hparts _ he))

/-- What instruments and their assets are used for: they come back, a snapshot counts every wallet
at the price of its instrument, and different instruments have different assets. -/
structure InstrumentsRoundTrip (S : Set Instrument) : Prop where
  roundTrips : ∀ i ∈ S, RoundTrips i
  balance : ∀ (p : Portfolio) (midPrices : List (Instrument × ℚ)) (total : ℚ),
    (p.wallets.map Wallet.assetInstrument).Nodup → (midPrices.map Prod.fst).Nodup →
    (∀ e ∈ midPrices, e.1 ∈ S) → snapshotBalance p midPrices = .ok total →
    total = (p.wallets.map fun w =>
      w.totalBalance * pricedAt midPrices p.quote w.assetInstrument).sum
  distinct : ∀ i ∈ S, ∀ j ∈ S, toAssetInstruments i = toAssetInstruments j → i = j

/-- **Instruments and assets correspond exactly if no symbol has more than two parts.** -/
theorem instrumentsRoundTrip_iff (hS : ∀ i ∈ S, 2 ≤ (symbolParts i.symbol).length) :
    InstrumentsRoundTrip S ↔ ∀ i ∈ S, (symbolParts i.symbol).length = 2 := by
  constructor
  · intro h i hi
    exact (roundTrips_iff (hS i hi)).1 (h.roundTrips i hi)
  · intro h
    have hround : ∀ i ∈ S, RoundTrips i := fun i hi => (roundTrips_iff (hS i hi)).2 (h i hi)
    refine ⟨hround, ?_, ?_⟩
    · intro p midPrices total hassets hkeys hin htotal
      rw [snapshotBalance_eq_value hassets htotal, value]
      simp only [priceOf_eq hkeys fun e he => h e.1 (hin e he)]
    · intro i hi j hj heq
      obtain ⟨base, quote, hto, hfrom⟩ := hround i hi
      obtain ⟨base', quote', hto', hfrom'⟩ := hround j hj
      rw [heq, hto'] at hto
      cases hto
      rw [hfrom'] at hfrom
      exact (Except.ok.inj hfrom).symm

/-- Two spot instruments. -/
def spotPairs : Set Instrument :=
  {i | i = ⟨"BINANCE", "spot", "BTC-USDT"⟩ ∨ i = ⟨"BINANCE", "spot", "ETH-USDT"⟩}

theorem instrumentsRoundTrip_iff_spotPairs :
    InstrumentsRoundTrip spotPairs ↔ ∀ i ∈ spotPairs, (symbolParts i.symbol).length = 2 := by
  refine instrumentsRoundTrip_iff ?_
  rintro i (rfl | rfl) <;> decide +kernel

/-- A perpetual loses the last part of its symbol. -/
theorem not_instrumentsRoundTrip_perpetual :
    ¬ InstrumentsRoundTrip {⟨"BINANCE_FUTURES", "perpetual", "BTC-USDT-PERP"⟩} := by
  intro h
  obtain ⟨base, quote, hto, hfrom⟩ := h.roundTrips _ rfl
  have hassets : toAssetInstruments ⟨"BINANCE_FUTURES", "perpetual", "BTC-USDT-PERP"⟩ =
      .ok (⟨"BINANCE_FUTURES", "perpetual", "BTC"⟩, ⟨"BINANCE_FUTURES", "perpetual", "USDT"⟩) := by
    decide +kernel
  rw [hassets] at hto
  cases hto
  revert hfrom
  decide +kernel

end Backtester

end Svoe
