import Svoe.DataFeed.BlockScan

/-!
# Symbols from the blocks of the resource index

With `reuse_index`, `_distribute_symbols` looks up the first symbol that is left, until that is in
no block.  Every block with the symbol makes a bucket, which is empty if the blocks before it had
all its symbols.  A payload without channels (all of them were unhealthy) raises.

* `LoopSpec.cons` : one round, and the rounds behind it.
* `exists_loop` : the whole loop.
* `reusesIndex_iff` : when the buckets are a partition of the symbols.
-/

namespace Svoe

namespace DataFeed

open Series Transition

variable {α : Type}

/-- The symbols that share no block with earlier ones, one after the other. -/
def apartSymbols (blocks : List (List String)) (earlier names : List String) : List String :=
  names.foldl (fun earlier s => if earlier.any (shareBlock blocks s) then earlier
    else earlier ++ [s]) earlier

/-- The symbols that are looked up with success: those up to the first one in no block, without
those that were taken with an earlier one. -/
def lookedUp (blocks : List (List String)) (names : List String) : List String :=
  apartSymbols blocks [] (names.takeWhile (inBlock blocks))

/-- The symbols that are left when the earlier ones have been looked up. -/
def namesLeft (blocks : List (List String)) (earlier names : List String) : List String :=
  names.filter fun s => !earlier.any (shareBlock blocks s)

/-- No block of a symbol that is looked up is used up before it is taken. -/
def NoBlockUsedUp (blocks : List (List String)) (names : List String) : Prop :=
  ∀ i (hi : i < (lookedUp blocks names).length),
    EveryBlockHasSome blocks (lookedUp blocks names)[i]
      (namesLeft blocks ((lookedUp blocks names).take i) names)

instance (blocks : List (List String)) (names : List String) :
    Decidable (NoBlockUsedUp blocks names) :=
  inferInstanceAs (Decidable (∀ i (_ : i < _), EveryBlockHasSome _ _ _))

/-- The distribution is a partition of the symbols, with up to 4 symbols in a bucket that is not
from a block. -/
structure IndexPartition (api : SymbolText α) (blocks : List (List String)) (symbols : List α)
    (dist : List (ℕ × List α)) : Prop where
  uses : UsesEverySymbol symbols dist
  disjoint : (dist.map Prod.snd).Pairwise List.Disjoint
  length : ∀ p ∈ dist, p.2.length ≤ 4 ∨ ∃ P ∈ blocks, ∀ s ∈ p.2, api.normalized s ∈ P

variable {api : SymbolText α} {symbols : List α} {name : String} {names : List String}
  {blocks : List (List String)} {s t : String}

/-! ### The loop -/

section Loop

variable {index : ResourceIndex} {exchange strategy : String} {earlier : List String}
  {buckets : List (List α)}

/-- The symbols that are left when the earlier ones have been looked up. -/
def symbolsLeft (api : SymbolText α) (blocks : List (List String)) (earlier : List String)
    (symbols : List α) : List α :=
  symbols.filter fun s => !earlier.any (shareBlock blocks (api.normalized s))

theorem map_symbolsLeft (symbols : List α) :
    (symbolsLeft api blocks earlier symbols).map api.normalized =
      namesLeft blocks earlier (symbols.map api.normalized) := by
  rw [symbolsLeft, namesLeft, List.filter_map]
  rfl

/-- One more symbol is looked up. -/
theorem symbolsLeft_append_singleton (symbols : List α) (name : String) :
    symbolsLeft api blocks (earlier ++ [name]) symbols =
      (symbolsLeft api blocks earlier symbols).filter fun s =>
        !shareBlock blocks name (api.normalized s) := by
  rw [symbolsLeft, symbolsLeft, List.filter_filter]
  refine List.filter_congr fun s _ => ?_
  rw [List.any_append, List.any_cons, List.any_nil, Bool.or_false, Bool.not_or, Bool.and_comm,
    shareBlock_comm]

theorem prefix_apartSymbols (blocks : List (List String)) (earlier names : List String) :
    earlier <+: apartSymbols blocks earlier names := by
  induction names generalizing earlier with
  | nil => exact List.prefix_rfl
  | cons s names ih =>
    rw [apartSymbols, List.foldl_cons, ← apartSymbols]
    split_ifs
    · exact ih earlier
    · exact (List.prefix_append _ _).trans (ih _)

/-- A round, by what the scan found. -/
theorem reuseRound_of_scan {symbol : α} {start : List α} {scan : ReuseScan α}
    (h : index.foldlM (scanPayload api exchange strategy symbol)
      ⟨symbol :: start, buckets, none⟩ = .ok scan) :
    reuseRound api index exchange strategy (symbol :: start, buckets) =
      .ok (if scan.blockHash.isSome then .inl (scan.symbols, scan.buckets)
        else .inr (scan.symbols, scan.buckets)) := by
  obtain ⟨symbols, buckets', blockHash⟩ := scan
  rw [reuseRound]
  dsimp only
  rw [h]
  cases blockHash <;> rfl

/-- A round for a symbol in a block. -/
theorem exists_reuseRound (hchannels : HasChannels index strategy) {symbol : α} {start : List α}
    (hstart : ((symbol :: start).map api.normalized).Nodup)
    (hin : inBlock (blocksOf index exchange strategy) (api.normalized symbol) = true)
    (buckets : List (List α)) : ∃ scan taken,
    reuseRound api index exchange strategy (symbol :: start, buckets) =
        .ok (.inl (scan.symbols, buckets ++ taken)) ∧
      ScanSpec api (blocksOf index exchange strategy) (api.normalized symbol) (symbol :: start)
        buckets scan taken := by
  obtain ⟨scan, taken, hscan, hspec⟩ := exists_scan hchannels hstart exchange symbol buckets
  refine ⟨scan, taken, ?_, hspec⟩
  rw [reuseRound_of_scan hscan, if_pos (hspec.found.trans hin), hspec.buckets]

/-- The last round: the first symbol that is left is in no block. -/
theorem reuseRound_of_not_inBlock (hchannels : HasChannels index strategy) {symbol : α}
    {start : List α} (hstart : ((symbol :: start).map api.normalized).Nodup)
    (hin : inBlock (blocksOf index exchange strategy) (api.normalized symbol) = false)
    (buckets : List (List α)) :
    reuseRound api index exchange strategy (symbol :: start, buckets) =
      .ok (.inr (symbol :: start, buckets)) := by
  obtain ⟨scan, taken, hscan, hspec⟩ := exists_scan hchannels hstart exchange symbol buckets
  have hsymbols : scan.symbols = symbol :: start := by
    rw [hspec.symbols]
    refine List.filter_eq_self.2 fun s _ => ?_
    rw [shareBlock_of_not_inBlock hin, Bool.not_false]
  rw [reuseRound_of_scan hscan, if_neg (by rw [hspec.found, hin]; exact Bool.false_ne_true),
    hsymbols, hspec.buckets, hspec.taken hin, List.append_nil]

/-- No block is used up before it is taken, from the `k`th symbol on that is looked up. -/
def NoneUsedUpFrom (blocks : List (List String)) (found : List String) (k : ℕ)
    (names : List String) : Prop :=
  ∀ i (hi : i < found.length), k ≤ i →
    EveryBlockHasSome blocks found[i] (namesLeft blocks (found.take i) names)

theorem noneUsedUpFrom_iff {found : List String} (h : earlier ++ [s] <+: found) :
    NoneUsedUpFrom blocks found earlier.length names ↔
      EveryBlockHasSome blocks s (namesLeft blocks earlier names) ∧
        NoneUsedUpFrom blocks found (earlier ++ [s]).length names := by
  obtain ⟨later, rfl⟩ := h
  have hlt : earlier.length < (earlier ++ [s] ++ later).length := by simp
  have hget : (earlier ++ [s] ++ later)[earlier.length] = s := by simp
  have htake : (earlier ++ [s] ++ later).take earlier.length = earlier := by simp
  rw [List.length_append, List.length_singleton]
  constructor
  · intro h
    refine ⟨?_, fun i hi hle => h i hi (by omega)⟩
    have hfirst := h earlier.length hlt le_rfl
    rwa [hget, htake] at hfirst
  · rintro ⟨hfirst, hlater⟩ i hi hle
    rcases hle.eq_or_lt with rfl | hlt'
    · rwa [hget, htake]
    · exact hlater i hi hlt'

/-- What the loop makes of the symbols that are left behind the earlier ones, if it finds `found`
in the end. -/
structure LoopSpec (api : SymbolText α) (blocks : List (List String)) (symbols : List α)
    (earlier found : List String) (taken : List (List α)) (rest : List α) : Prop where
  perm : (taken.flatten ++ rest).Perm (symbolsLeft api blocks earlier symbols)
  inside : ∀ b ∈ taken, ∃ P ∈ blocks, ∀ s ∈ b, api.normalized s ∈ P
  ne_nil : (∀ b ∈ taken, b ≠ []) ↔
    NoneUsedUpFrom blocks found earlier.length (symbols.map api.normalized)

/-- The end of the loop. -/
theorem loopSpec_nil (api : SymbolText α) (blocks : List (List String)) (symbols : List α)
    (earlier : List String) :
    LoopSpec api blocks symbols earlier earlier [] (symbolsLeft api blocks earlier symbols) where
  perm := .refl _
  inside _ h := absurd h List.not_mem_nil
  ne_nil := iff_of_true (fun _ h => absurd h List.not_mem_nil)
    fun _ hi hle => absurd hi (Nat.not_lt.2 hle)

/-- **One round**, and the rounds behind it. -/
theorem LoopSpec.cons {found : List String} {scan : ReuseScan α} {taken taken' : List (List α)}
    {rest : List α} (hscan : ScanSpec api blocks name (symbolsLeft api blocks earlier symbols)
      buckets scan taken)
    (h : LoopSpec api blocks symbols (earlier ++ [name]) found taken' rest)
    (hfound : earlier ++ [name] <+: found) :
    LoopSpec api blocks symbols earlier found (taken ++ taken') rest where
  perm := by
    rw [List.flatten_append, List.append_assoc]
    refine (hscan.perm.append (h.perm.trans ?_)).trans
      (List.filter_append_perm (fun s => shareBlock blocks name (api.normalized s)) _)
    rw [symbolsLeft_append_singleton]
  inside b hb := (List.mem_append.1 hb).elim (hscan.inside b) (h.inside b)
  ne_nil := by
    rw [noneUsedUpFrom_iff hfound, List.forall_mem_append, hscan.ne_nil, h.ne_nil, map_symbolsLeft]

theorem nodup_symbolsLeft (h : (symbols.map api.normalized).Nodup)
    (blocks : List (List String)) (earlier : List String) :
    ((symbolsLeft api blocks earlier symbols).map api.normalized).Nodup :=
  h.sublist (List.filter_sublist.map _)

/-- Symbols that were taken are not left. -/
theorem symbolsLeft_append_of_taken {passed : List α}
    (h : ∀ s ∈ passed, earlier.any (shareBlock blocks (api.normalized s)) = true)
    (symbols : List α) :
    symbolsLeft api blocks earlier (passed ++ symbols) =
      symbolsLeft api blocks earlier symbols := by
  rw [symbolsLeft, List.filter_append, List.filter_eq_nil_iff.2 fun s hs => by simp [h s hs],
    List.nil_append]
  rfl

theorem symbolsLeft_cons_of_left {symbol : α}
    (h : earlier.any (shareBlock blocks (api.normalized symbol)) = false) (symbols : List α) :
    symbolsLeft api blocks earlier (symbol :: symbols) =
      symbol :: symbolsLeft api blocks earlier symbols := by
  rw [symbolsLeft, List.filter_cons_of_pos (by simp [h])]
  rfl

/-- A symbol that is looked up is taken itself. -/
theorem any_shareBlock_append_singleton {passed : List α} {symbol : α}
    (hpassed : ∀ s ∈ passed, earlier.any (shareBlock blocks (api.normalized s)) = true)
    (hin : inBlock blocks (api.normalized symbol) = true) : ∀ s ∈ passed ++ [symbol],
      (earlier ++ [api.normalized symbol]).any (shareBlock blocks (api.normalized s)) = true := by
  intro s hs
  rw [List.any_append, Bool.or_eq_true]
  rcases List.mem_append.1 hs with hs | hs
  · exact .inl (hpassed s hs)
  · rw [List.mem_singleton.1 hs, List.any_cons, shareBlock_self, hin]
    exact .inr rfl

/-- The loop ends at a symbol that is in no block, or at the end. -/
theorem returns_symbolsLeft (hchannels : HasChannels index strategy) {unknown : List α}
    (hnodup : (unknown.map api.normalized).Nodup) (hunknown : ∀ s ∈ unknown.head?,
      inBlock (blocksOf index exchange strategy) (api.normalized s) = false)
    (earlier : List String) (buckets : List (List α)) :
    Returns (fun n => iterate (reuseRound api index exchange strategy) n
        (symbolsLeft api (blocksOf index exchange strategy) earlier unknown, buckets))
      (.ok (symbolsLeft api (blocksOf index exchange strategy) earlier unknown, buckets)) := by
  cases unknown with
  | nil => exact returns_of_done rfl
  | cons symbol unknown =>
    have hin := hunknown symbol (Option.mem_some_self symbol)
    have hany : earlier.any (shareBlock (blocksOf index exchange strategy)
        (api.normalized symbol)) = false :=
      List.any_eq_false.2 fun e _ => by simp [shareBlock_of_not_inBlock hin]
    have hleft := nodup_symbolsLeft hnodup (blocksOf index exchange strategy) earlier
    rw [symbolsLeft_cons_of_left hany] at hleft ⊢
    exact returns_of_done (reuseRound_of_not_inBlock hchannels hleft hin buckets)

/-- **The loop** over the symbols, of which `passed` are taken, `todo` are in blocks and the first
one behind them is not. -/
theorem exists_loop (hchannels : HasChannels index strategy)
    (hblocks : blocksOf index exchange strategy = blocks) (earlier : List String)
    {passed todo unknown : List α}
    (hnodup : ((passed ++ todo ++ unknown).map api.normalized).Nodup)
    (hpassed : ∀ s ∈ passed, earlier.any (shareBlock blocks (api.normalized s)) = true)
    (htodo : ∀ s ∈ todo, inBlock blocks (api.normalized s) = true)
    (hunknown : ∀ s ∈ unknown.head?, inBlock blocks (api.normalized s) = false)
    (buckets : List (List α)) : ∃ taken rest,
    Returns (fun n => iterate (reuseRound api index exchange strategy) n
        (symbolsLeft api blocks earlier (passed ++ todo ++ unknown), buckets))
        (.ok (rest, buckets ++ taken)) ∧
      LoopSpec api blocks (passed ++ todo ++ unknown) earlier
        (apartSymbols blocks earlier (todo.map api.normalized)) taken rest := by
  subst hblocks
  -- not every symbol makes a round, so the induction is on the symbols and not on the rounds
  induction todo generalizing passed earlier buckets with
  | nil =>
    refine ⟨[], _, ?_, loopSpec_nil api _ _ earlier⟩
    rw [List.append_nil] at hnodup ⊢
    rw [List.append_nil, symbolsLeft_append_of_taken hpassed]
    exact returns_symbolsLeft hchannels (hnodup.sublist ((List.sublist_append_right _ _).map _))
      hunknown earlier buckets
  | cons symbol todo ih =>
    obtain ⟨hin, htodo⟩ := List.forall_mem_cons.1 htodo
    have hsymbols :
        passed ++ symbol :: todo ++ unknown = passed ++ [symbol] ++ todo ++ unknown := by
      simp
    rw [hsymbols] at hnodup ⊢
    rw [List.map_cons, apartSymbols, List.foldl_cons, ← apartSymbols]
    split_ifs with hshare
    · -- the symbol was taken with an earlier one
      refine ih earlier hnodup buckets (List.forall_mem_append.2 ⟨hpassed, fun s hs => ?_⟩) htodo
      rwa [List.mem_singleton.1 hs]
    · -- the symbol is the first one that is left
      rw [Bool.not_eq_true] at hshare
      have hleft := nodup_symbolsLeft hnodup (blocksOf index exchange strategy) earlier
      have hcons : symbolsLeft api (blocksOf index exchange strategy) earlier
          (passed ++ [symbol] ++ todo ++ unknown) =
            symbol :: symbolsLeft api (blocksOf index exchange strategy) earlier
              (todo ++ unknown) := by
        rw [List.append_assoc, List.append_assoc, symbolsLeft_append_of_taken hpassed,
          List.singleton_append, symbolsLeft_cons_of_left hshare]
      rw [hcons] at hleft
      obtain ⟨scan, taken, hround, hspec⟩ := exists_reuseRound hchannels hleft hin buckets
      obtain ⟨taken', rest, hreturns, hloop⟩ := ih _ hnodup (buckets ++ taken)
        (any_shareBlock_append_singleton hpassed hin) htodo
      rw [← hcons] at hround hspec
      refine ⟨taken ++ taken', rest, returns_of_goesOn hround ?_,
        hloop.cons hspec (prefix_apartSymbols _ _ _)⟩
      rw [hspec.symbols, ← symbolsLeft_append_singleton, ← List.append_assoc]
      exact hreturns

end Loop

/-! ### Leftovers -/

/-- The buckets of 4 from a position on. -/
theorem flatten_map_slice (symbols : List α) (k start : ℕ) (h : symbols.length ≤ start + 4 * k) :
    ((List.range' start k 4).map fun i => slice symbols (i, i + 4)).flatten =
      symbols.drop start := by
  induction k generalizing start with
  | zero => exact (List.drop_eq_nil_of_le h).symm
  | succ k ih =>
    rw [List.range'_succ, List.map_cons, List.flatten_cons, ih (start + 4) (by omega),
      ← drop_eq_slice_append (Nat.le_add_right start 4)]

theorem flatten_leftovers (symbols : List α) : (leftovers symbols).flatten = symbols := by
  rw [leftovers, flatten_map_slice symbols _ 0 (by omega), List.drop_zero]

theorem length_leftovers (symbols : List α) :
    ∀ b ∈ leftovers symbols, b ≠ [] ∧ b.length ≤ 4 := by
  intro b hb
  obtain ⟨i, hi, rfl⟩ := List.mem_map.1 hb
  obtain ⟨k, hk, rfl⟩ := List.mem_range'.1 hi
  rw [← List.length_pos_iff, slice, List.length_drop, List.length_take]
  omega

/-! ### The partition -/

section Partition

variable {index : ResourceIndex} {exchange strategy : String}

/-- **The whole distribution.** -/
theorem exists_reuseDistribution (hchannels : HasChannels index strategy)
    (hnodup : (symbols.map api.normalized).Nodup) (exchange : String) : ∃ taken rest,
    Returns (reuseDistribution api index exchange strategy symbols)
        (.ok (enumerate (taken ++ leftovers rest))) ∧
      (taken.flatten ++ rest).Perm symbols ∧
      (∀ b ∈ taken, ∃ P ∈ blocksOf index exchange strategy, ∀ s ∈ b, api.normalized s ∈ P) ∧
      ((∀ b ∈ taken, b ≠ []) ↔
        NoBlockUsedUp (blocksOf index exchange strategy) (symbols.map api.normalized)) := by
  let known : α → Bool := fun s => inBlock (blocksOf index exchange strategy) (api.normalized s)
  have hsplit : [] ++ symbols.takeWhile known ++ symbols.dropWhile known = symbols :=
    List.takeWhile_append_dropWhile
  have hunknown : ∀ s ∈ (symbols.dropWhile known).head?, known s = false := by
    intro s hs
    have hnot := List.head?_dropWhile_not known symbols
    rw [Option.mem_def.1 hs] at hnot
    exact hnot
  have hknown : ∀ s ∈ symbols.takeWhile known, known s = true :=
    fun s hs => List.mem_takeWhile_imp hs
  obtain ⟨taken, rest, hreturns, hloop⟩ := exists_loop hchannels rfl [] (hsplit.symm ▸ hnodup)
    (fun s hs => absurd hs List.not_mem_nil) hknown hunknown []
  have hstart : symbolsLeft api (blocksOf index exchange strategy) [] symbols = symbols :=
    List.filter_eq_self.2 fun _ _ => rfl
  have hperm := hloop.perm
  have hne := hloop.ne_nil
  rw [hsplit, hstart] at hreturns hperm
  refine ⟨taken, rest, hreturns.map _, hperm, hloop.inside, ?_⟩
  rw [hne, hsplit, NoBlockUsedUp, lookedUp, List.takeWhile_map]
  exact forall_congr' fun i => forall_congr' fun hi => forall_prop_of_true (Nat.zero_le i)

/-- A scan that does not raise has read the payloads of the strategy. -/
theorem hasChannels_of_scan {symbol : α} {scan scan' : ReuseScan α}
    (h : index.foldlM (scanPayload api exchange strategy symbol) scan = .ok scan') :
    HasChannels index strategy := by
  induction index generalizing scan with
  | nil => exact fun payload hp => absurd hp List.not_mem_nil
  | cons payload index ih =>
    rw [List.foldlM_cons, bind_eq_ok_iff] at h
    obtain ⟨scan₁, hscan, hrest⟩ := h
    refine List.forall_mem_cons.2 ⟨fun hstrategy => ?_, ih hrest⟩
    rw [scanPayload, if_pos hstrategy, bind_eq_ok_iff] at hscan
    obtain ⟨r, hr, -⟩ := hscan
    exact exists_payloadSymbols_iff.1 ⟨r, hr⟩

/-- A payload without channels raises. -/
theorem reuseDistribution_of_not_hasChannels (hne : symbols ≠ [])
    (hchannels : ¬ HasChannels index strategy) (exchange : String) :
    ∃ e, Returns (reuseDistribution api index exchange strategy symbols) (.error e) := by
  obtain ⟨symbol, symbols, rfl⟩ := List.exists_cons_of_ne_nil hne
  cases hscan : index.foldlM (scanPayload api exchange strategy symbol)
      ⟨symbol :: symbols, [], none⟩ with
  | error e =>
    have hround : reuseRound api index exchange strategy (symbol :: symbols, []) = .error e := by
      rw [reuseRound]
      dsimp only
      rw [hscan]
      rfl
    exact ⟨e, (returns_of_error hround).map _⟩
  | ok scan => exact absurd (hasChannels_of_scan hscan) hchannels

/-- Buckets from blocks and buckets of leftovers. -/
theorem indexPartition_enumerate {taken : List (List α)} {rest : List α}
    (hnodup : (symbols.map api.normalized).Nodup)
    (hperm : (taken.flatten ++ rest).Perm symbols)
    (hinside : ∀ b ∈ taken, ∃ P ∈ blocks, ∀ s ∈ b, api.normalized s ∈ P)
    (hne : ∀ b ∈ taken, b ≠ []) :
    IndexPartition api blocks symbols (enumerate (taken ++ leftovers rest)) := by
  have hflatten : (taken ++ leftovers rest).flatten.Perm symbols := by
    rwa [List.flatten_append, flatten_leftovers]
  refine ⟨usesEverySymbol_enumerate ?_ hflatten, ?_, fun p hp => ?_⟩
  · exact List.forall_mem_append.2 ⟨hne, fun b hb => (length_leftovers rest b hb).1⟩
  · rw [map_snd_enumerate]
    exact (List.nodup_flatten.1 (hflatten.nodup_iff.2 (List.Nodup.of_map _ hnodup))).2
  · rcases List.mem_append.1 (mem_of_mem_enumerate hp) with hb | hb
    · exact .inr (hinside _ hb)
    · exact .inl (length_leftovers rest _ hb).2

/-- **The distribution is a partition if and only if** there is nothing to look up, or all
payloads have channels and no block is used up before it is taken. -/
theorem reusesIndex_iff (quoteVolume : String → ℕ) (mean : List ℕ → ℚ) (exchange strategy : String)
    (h : (symbols.map api.normalized).Nodup) :
    (∃ dist, Returns (distributeSymbols api quoteVolume index mean exchange symbols strategy true)
        (.ok dist) ∧ IndexPartition api (blocksOf index exchange strategy) symbols dist) ↔
      symbols = [] ∨ HasChannels index strategy ∧
        NoBlockUsedUp (blocksOf index exchange strategy) (symbols.map api.normalized) := by
  change (∃ dist, Returns (reuseDistribution api index exchange strategy symbols) _ ∧ _) ↔ _
  constructor
  · rintro ⟨dist, hreturns, hdist⟩
    refine or_iff_not_imp_left.2 fun hne => ?_
    have hchannels : HasChannels index strategy := by
      by_contra hchannels
      obtain ⟨e, he⟩ := reuseDistribution_of_not_hasChannels hne hchannels exchange
      cases hreturns.unique he
    obtain ⟨taken, rest, hreturns', -, -, hiff⟩ := exists_reuseDistribution hchannels h exchange
    obtain rfl := Except.ok.inj (hreturns.unique hreturns')
    -- a bucket from a block is a bucket of the distribution, so it is not empty
    refine ⟨hchannels, hiff.1 fun b hb => ?_⟩
    have hmem : b ∈ (enumerate (taken ++ leftovers rest)).map Prod.snd := by
      rw [map_snd_enumerate]
      exact List.mem_append_left _ hb
    obtain ⟨p, hp, rfl⟩ := List.mem_map.1 hmem
    exact hdist.uses.ne_nil p hp
  · rintro (rfl | ⟨hchannels, hblocks⟩)
    · refine ⟨_, (returns_of_done rfl).map _, indexPartition_enumerate h (.refl _) ?_ ?_⟩ <;>
        exact fun b hb => absurd hb List.not_mem_nil
    · obtain ⟨taken, rest, hreturns, hperm, hinside, hiff⟩ :=
        exists_reuseDistribution hchannels h exchange
      exact ⟨_, hreturns, indexPartition_enumerate h hperm hinside (hiff.2 hblocks)⟩

/-- Symbols as base and quote. -/
def pairText : SymbolText (String × String) where
  normalized s := s.1 ++ "-" ++ s.2
  base s := s.1

/-- Two blocks that share a symbol. -/
def sharedIndex : ResourceIndex :=
  [("p", ⟨[("BINANCE", [("trades", ["BTC-USDT", "ETH-USDT"])])], ["ONE_TO_ONE"]⟩),
    ("q", ⟨[("BINANCE", [("trades", ["BTC-USDT", "XRP-USDT"])])], ["ONE_TO_ONE"]⟩)]

/-- The second block has another symbol too. -/
theorem reusesIndex_sharedSymbol : ∃ dist,
    Returns (distributeSymbols pairText (fun _ => 0) sharedIndex (fun _ => 0) "BINANCE"
      [("BTC", "USDT"), ("XRP", "USDT"), ("ADA", "USDT")] "ONE_TO_ONE" true) (.ok dist) ∧
    IndexPartition pairText [["BTC-USDT", "ETH-USDT"], ["BTC-USDT", "XRP-USDT"]]
      [("BTC", "USDT"), ("XRP", "USDT"), ("ADA", "USDT")] dist := by
  refine (reusesIndex_iff (fun _ => 0) (fun _ => 0) "BINANCE" "ONE_TO_ONE" (by decide)).2
    (.inr ⟨?_, by decide +kernel⟩)
  intro payload hpayload _
  rcases List.mem_pair.1 hpayload with rfl | rfl <;> exact ⟨_, _, _, _, rfl⟩

/-- The first block has the one symbol: the second bucket is empty. -/
theorem not_reusesIndex_usedUp : ¬ ∃ dist,
    Returns (distributeSymbols pairText (fun _ => 0) sharedIndex (fun _ => 0) "BINANCE"
      [("BTC", "USDT")] "ONE_TO_ONE" true) (.ok dist) ∧
    IndexPartition pairText [["BTC-USDT", "ETH-USDT"], ["BTC-USDT", "XRP-USDT"]]
      [("BTC", "USDT")] dist := by
  rintro ⟨dist, hreturns, hdist⟩
  have hbuckets : iterate (reuseRound pairText sharedIndex "BINANCE" "ONE_TO_ONE") 2
      ([("BTC", "USDT")], []) = some (.ok ([], [[("BTC", "USDT")], []])) := by
    decide +kernel
  obtain rfl := Except.ok.inj (hreturns.unique ((returns_of_iterate hbuckets).map _))
  exact hdist.uses.ne_nil (1, []) (by decide) rfl

end Partition

end DataFeed

end Svoe
