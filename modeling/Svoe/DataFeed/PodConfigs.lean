import Svoe.Common.Dict
import Svoe.Common.Frame
import Svoe.Series.RemoveWhile

/-!
# The symbols of a pod configuration

`build_pod_configs` of the config builder makes the symbols of an exchange from its explicit symbols
and all pairs of its bases and quotes, and takes the excluded bases and quotes out again.  It
removes them from the list that it iterates over.

A symbol is one of cryptofeed's `Symbol` objects: `base`, `quote` and `==` are what is used of it.

* `podSymbols_eq_iff` : exactly the excluded symbols are removed if none of them is skipped behind
  another one in the last loop that it matches.
-/

namespace Svoe

namespace DataFeed

open Series

/-- `symbolSets` or `excludes` of a field: a list, or the name of a set of the master config. -/
inductive SymbolSet where
  | explicit (symbols : List String)
  | reference (name : String)
  deriving DecidableEq, Repr

/-- What `build_pod_configs` reads of `exchange_config` for the symbols. -/
structure ExchangeConfig where
  instrumentType : String
  /-- The `base` and `quote` of `symbols`. -/
  symbols : List (String × String)
  symbolSetsBases : SymbolSet
  symbolSetsQuotes : SymbolSet
  excludesBases : SymbolSet
  excludesQuotes : SymbolSet
  deriving DecidableEq, Repr

/-- `symbolSets` of `MASTER_CONFIG`. -/
abbrev MasterSymbolSets := List (String × List String)

/-- `_read_symbol_set` and `_read_excludes`, for the set of a field. -/
def readSymbolSet (master : MasterSymbolSets) : SymbolSet → Except PyError (List String)
  | .explicit symbols => .ok symbols
  | .reference name =>
    match dictGet master name with
    | some symbols => .ok symbols
    | none => .error (.key name)

/-- What the code uses of cryptofeed's `Symbol`. -/
structure SymbolApi (α : Type) where
  /-- The constructor, from base, quote and type. -/
  symbol : String → String → String → α
  base : α → String
  quote : α → String
  /-- `==`, or identity. -/
  same : α → α → Bool
  same_self : ∀ s, same s s = true
  base_eq_of_same : ∀ s t, same s t = true → base s = base t
  quote_eq_of_same : ∀ s t, same s t = true → quote s = quote t

variable {α : Type} (api : SymbolApi α)

/-- The explicit symbols, and all pairs of a base and a quote. -/
def allSymbols (config : ExchangeConfig) (bases quotes : List String) : List α :=
  config.symbols.map (fun s => api.symbol s.1 s.2 config.instrumentType) ++
    quotes.flatMap fun quote => bases.map fun base => api.symbol base quote config.instrumentType

/-- The loops over the symbols: one for each excluded base, then one for each excluded quote. -/
def excludeLoops (excludeBases excludeQuotes : List String) : List (α → Bool) :=
  excludeBases.map (fun base s => decide (api.base s = base)) ++
    excludeQuotes.map fun quote s => decide (api.quote s = quote)

/-- The symbols of `build_pod_configs`, after `# filter excludes`. -/
def podSymbols (master : MasterSymbolSets) (config : ExchangeConfig) : Except PyError (List α) := do
  let bases ← readSymbolSet master config.symbolSetsBases
  let quotes ← readSymbolSet master config.symbolSetsQuotes
  let excludeBases ← readSymbolSet master config.excludesBases
  let excludeQuotes ← readSymbolSet master config.excludesQuotes
  return removeAll api.same (excludeLoops api excludeBases excludeQuotes)
    (allSymbols api config bases quotes)

variable {api} {master : MasterSymbolSets} {config : ExchangeConfig}
  {bases quotes excludeBases excludeQuotes : List String}

/-- A symbol is in no loop if neither its base nor its quote is excluded. -/
theorem all_excludeLoops (s : α) :
    ((excludeLoops api excludeBases excludeQuotes).all fun p => !p s) =
      decide (api.base s ∉ excludeBases ∧ api.quote s ∉ excludeQuotes) := by
  have hall : ∀ (x : String) (l : List String),
      (l.all fun y => !decide (x = y)) = true ↔ x ∉ l := by
    intro x l
    rw [List.all_eq_true]
    constructor
    · intro h hx
      simpa using h x hx
    · intro h y hy
      rw [Bool.not_eq_true', decide_eq_false_iff_not]
      rintro rfl
      exact h hy
  rw [excludeLoops, List.all_append, List.all_map, List.all_map, Bool.eq_iff_iff, Bool.and_eq_true,
    decide_eq_true_iff]
  exact and_congr (hall (api.base s) excludeBases) (hall (api.quote s) excludeQuotes)

/-- **Exactly the excluded symbols are removed if and only if whatever a loop skips is matched by a
later one.** -/
theorem podSymbols_eq_iff (hbases : readSymbolSet master config.symbolSetsBases = .ok bases)
    (hquotes : readSymbolSet master config.symbolSetsQuotes = .ok quotes)
    (hexcludeBases : readSymbolSet master config.excludesBases = .ok excludeBases)
    (hexcludeQuotes : readSymbolSet master config.excludesQuotes = .ok excludeQuotes) :
    podSymbols api master config =
        .ok ((allSymbols api config bases quotes).filter fun s =>
          api.base s ∉ excludeBases ∧ api.quote s ∉ excludeQuotes) ↔
      NothingLeft api.same (excludeLoops api excludeBases excludeQuotes)
        (allSymbols api config bases quotes) := by
  have hloops : ∀ p ∈ excludeLoops api excludeBases excludeQuotes, ∀ s t,
      (api.base s, api.quote s) = (api.base t, api.quote t) → p s = p t := by
    intro p hp s t hst
    obtain ⟨hbase, hquote⟩ := Prod.ext_iff.1 hst
    rcases List.mem_append.1 hp with hp | hp <;> obtain ⟨x, -, rfl⟩ := List.mem_map.1 hp
    · exact congrArg (fun b => decide (b = x)) hbase
    · exact congrArg (fun q => decide (q = x)) hquote
  have hkey : ∀ s t, api.same s t = true →
      (api.base s, api.quote s) = (api.base t, api.quote t) :=
    fun s t h => Prod.ext (api.base_eq_of_same s t h) (api.quote_eq_of_same s t h)
  have hpod : podSymbols api master config =
      .ok (removeAll api.same (excludeLoops api excludeBases excludeQuotes)
        (allSymbols api config bases quotes)) := by
    rw [podSymbols, hbases, hquotes, hexcludeBases, hexcludeQuotes]
    rfl
  rw [hpod, Except.ok.injEq, ← removeAll_eq_filter_iff api.same_self hkey hloops]
  simp only [all_excludeLoops]

/-- Symbols as base, quote and type, that are equal if these are. -/
def plainSymbols : SymbolApi (String × String × String) where
  symbol base quote type := (base, quote, type)
  base s := s.1
  quote s := s.2.1
  same s t := s = t
  same_self _ := decide_eq_true rfl
  base_eq_of_same _ _ h := congrArg Prod.fst (of_decide_eq_true h)
  quote_eq_of_same _ _ h := congrArg (fun s => s.2.1) (of_decide_eq_true h)

theorem podSymbols_eq_iff_oneExcluded :
    podSymbols plainSymbols [("TOP", ["BTC", "BSV", "ETH"])]
        ⟨"SPOT", [], .reference "TOP", .explicit ["USDT", "USD"], .explicit ["BSV"], .explicit []⟩ =
      .ok ((allSymbols plainSymbols
          ⟨"SPOT", [], .reference "TOP", .explicit ["USDT", "USD"], .explicit ["BSV"], .explicit []⟩
          ["BTC", "BSV", "ETH"] ["USDT", "USD"]).filter fun s =>
        plainSymbols.base s ∉ ["BSV"] ∧ plainSymbols.quote s ∉ []) ↔
    NothingLeft plainSymbols.same (excludeLoops plainSymbols ["BSV"] [])
      (allSymbols plainSymbols
        ⟨"SPOT", [], .reference "TOP", .explicit ["USDT", "USD"], .explicit ["BSV"], .explicit []⟩
        ["BTC", "BSV", "ETH"] ["USDT", "USD"]) :=
  podSymbols_eq_iff rfl rfl rfl rfl

/-- The second of two symbols with an excluded quote is skipped. -/
theorem podSymbols_ne_twoExcluded :
    podSymbols plainSymbols []
        ⟨"SPOT", [], .explicit ["BTC", "ETH"], .explicit ["USD"], .explicit [], .explicit ["USD"]⟩ ≠
      .ok ((allSymbols plainSymbols
          ⟨"SPOT", [], .explicit ["BTC", "ETH"], .explicit ["USD"], .explicit [], .explicit ["USD"]⟩
          ["BTC", "ETH"] ["USD"]).filter fun s =>
        plainSymbols.base s ∉ [] ∧ plainSymbols.quote s ∉ ["USD"]) := by
  decide +kernel

end DataFeed

end Svoe
