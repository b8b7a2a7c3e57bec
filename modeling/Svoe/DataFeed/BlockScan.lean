import Mathlib.Data.List.TakeWhile
import Svoe.DataFeed.SymbolDistribution

/-!
# Scanning the resource index for a symbol

With `reuse_index`, `_distribute_symbols` scans the payloads of the index for a symbol and takes
the symbols of every block that has it.  The scan goes on when a block is found, so that a second
block with the symbol makes a bucket too.

* `takeName_eq`, `exists_takeNames` : the symbols of a block, by name.
* `ScanSpec.step` : one payload of the scan.
* `exists_scan` : the scan of all payloads.
-/

namespace Svoe

namespace DataFeed

open Series Transition

variable {α : Type}

/-! ### Blocks -/

/-- The symbols of a payload, if it is of the exchange and the strategy. -/
def blockOf (exchange strategy : String) (payload : String × ResourceEntry) :
    Option (List String) :=
  if strategy ∈ payload.2.symbolDistributions then
    match payloadSymbols payload.2 with
    | .ok (payloadExchange, names) => if payloadExchange = exchange then some names else none
    | .error _ => none
  else none

/-- The blocks of an exchange and a strategy. -/
def blocksOf (index : ResourceIndex) (exchange strategy : String) : List (List String) :=
  index.filterMap (blockOf exchange strategy)

/-- A block has the symbol. -/
def inBlock (blocks : List (List String)) (s : String) : Bool := blocks.any fun P => s ∈ P

/-- A block has both symbols. -/
def shareBlock (blocks : List (List String)) (s t : String) : Bool :=
  blocks.any fun P => s ∈ P ∧ t ∈ P

/-- Every block of `s` has a symbol of `names` that no block of `s` before it has. -/
def EveryBlockHasSome (blocks : List (List String)) (s : String) (names : List String) : Prop :=
  ∀ j (hj : j < blocks.length), s ∈ blocks[j] →
    ∃ t ∈ names, t ∈ blocks[j] ∧ ∀ Q ∈ blocks.take j, s ∈ Q → t ∉ Q

/-- Every payload of the strategy has an exchange with a channel. -/
def HasChannels (index : ResourceIndex) (strategy : String) : Prop :=
  ∀ payload ∈ index, strategy ∈ payload.2.symbolDistributions →
    ∃ exchange channel channels payloads,
      payload.2.payloadConfig = (exchange, channel :: channels) :: payloads

instance (blocks : List (List String)) (s : String) (names : List String) :
    Decidable (EveryBlockHasSome blocks s names) :=
  inferInstanceAs (Decidable (∀ j (_ : j < _), _ → ∃ t ∈ _, _ ∧ ∀ Q ∈ _, _ → _))

variable {api : SymbolText α} {symbols bucket : List α} {name : String} {names : List String}
  {blocks : List (List String)} {P : List String} {s t : String}

theorem shareBlock_eq_false_iff :
    shareBlock blocks s t = false ↔ ∀ Q ∈ blocks, s ∈ Q → t ∉ Q := by
  simp [shareBlock]

theorem shareBlock_comm (blocks : List (List String)) (s t : String) :
    shareBlock blocks s t = shareBlock blocks t s := by
  simp only [shareBlock, and_comm]

theorem shareBlock_self (blocks : List (List String)) (s : String) :
    shareBlock blocks s s = inBlock blocks s := by
  simp [shareBlock, inBlock]

theorem shareBlock_of_not_inBlock (hs : inBlock blocks s = false) (t : String) :
    shareBlock blocks s t = false := by
  rw [shareBlock_eq_false_iff]
  intro Q hQ hsQ
  rw [inBlock, List.any_eq_false] at hs
  exact absurd (decide_eq_true hsQ) (hs Q hQ)

theorem shareBlock_append_singleton (blocks : List (List String)) (P : List String)
    (s t : String) :
    shareBlock (blocks ++ [P]) s t = (shareBlock blocks s t || decide (s ∈ P ∧ t ∈ P)) := by
  rw [shareBlock, List.any_append]
  simp [shareBlock]

theorem inBlock_append_singleton (blocks : List (List String)) (P : List String) (s : String) :
    inBlock (blocks ++ [P]) s = (inBlock blocks s || decide (s ∈ P)) := by
  rw [inBlock, List.any_append]
  simp [inBlock]

theorem everyBlockHasSome_append_singleton :
    EveryBlockHasSome (blocks ++ [P]) s names ↔ EveryBlockHasSome blocks s names ∧
      (s ∈ P → ∃ t ∈ names, t ∈ P ∧ shareBlock blocks s t = false) := by
  have hlength : (blocks ++ [P]).length = blocks.length + 1 := by
    rw [List.length_append, List.length_singleton]
  have hget : ∀ j (hj : j < blocks.length) (hj' : j < (blocks ++ [P]).length),
      (blocks ++ [P])[j] = blocks[j] := fun j hj _ => List.getElem_append_left hj
  have htake : ∀ j, j ≤ blocks.length → (blocks ++ [P]).take j = blocks.take j :=
    fun j hj => List.take_append_of_le_length hj
  simp only [shareBlock_eq_false_iff]
  constructor
  · intro h
    refine ⟨fun j hj hs => ?_, fun hs => ?_⟩
    · have hj' : j < (blocks ++ [P]).length := by omega
      simpa only [hget j hj hj', htake j hj.le] using h j hj' (by rwa [hget j hj hj'])
    · have hlast := h blocks.length (by omega)
      simp only [List.getElem_concat_length, htake _ le_rfl, List.take_length] at hlast
      exact hlast hs
  · rintro ⟨hbefore, hlast⟩ j hj hs
    rcases Nat.lt_succ_iff_lt_or_eq.1 (hlength ▸ hj) with hj' | rfl
    · simp only [hget j hj' hj, htake j hj'.le] at hs ⊢
      exact hbefore j hj' hs
    · simp only [List.getElem_concat_length, htake _ le_rfl, List.take_length] at hs ⊢
      exact hlast hs

/-! ### Taking a block -/

/-- The symbols without those of a block. -/
def without (api : SymbolText α) (names : List String) (symbols : List α) : List α :=
  symbols.filter fun s => api.normalized s ∉ names

/-- The symbols of a block. -/
def within (api : SymbolText α) (names : List String) (symbols : List α) : List α :=
  symbols.filter fun s => api.normalized s ∈ names

theorem toRemove_of_not_mem (h : name ∉ symbols.map api.normalized) :
    toRemove api symbols name = [] := by
  refine List.filter_eq_nil_iff.2 fun i _ hi => h ?_
  obtain ⟨s, hs, rfl⟩ := Option.map_eq_some_iff.1 (of_decide_eq_true hi)
  exact List.mem_map_of_mem (List.mem_of_getElem? hs)

theorem toRemove_of_nodup {left right : List α} {s : α}
    (h : ((left ++ s :: right).map api.normalized).Nodup) :
    toRemove api (left ++ s :: right) (api.normalized s) = [left.length] := by
  have hlt : left.length < (left ++ s :: right).length := by
    rw [List.length_append, List.length_cons]
    omega
  have hs : (left ++ s :: right)[left.length]? = some s := by
    rw [List.getElem?_append_right le_rfl, Nat.sub_self]
    rfl
  have hiff : ∀ i ∈ List.range (left ++ s :: right).length,
      decide ((left ++ s :: right)[i]?.map api.normalized = some (api.normalized s)) =
        decide (i = left.length) := by
    intro i _
    rw [decide_eq_decide]
    constructor
    · intro hi
      refine ((List.getElem?_inj (by rwa [List.length_map]) h).1 ?_).symm
      rw [List.getElem?_map, List.getElem?_map, hi, hs]
      rfl
    · rintro rfl
      rw [hs]
      rfl
  rw [toRemove, List.filter_congr hiff, List.filter_eq,
    List.count_eq_one_of_mem List.nodup_range (List.mem_range.2 hlt)]
  rfl

/-- A name takes its symbol, if it is there. -/
theorem takeName_eq (h : (symbols.map api.normalized).Nodup) (bucket : List α) (name : String) :
    takeName api (symbols, bucket) name =
      .ok (without api [name] symbols, bucket ++ within api [name] symbols) := by
  by_cases hname : name ∈ symbols.map api.normalized
  · obtain ⟨s, hs, rfl⟩ := List.mem_map.1 hname
    obtain ⟨left, right, rfl⟩ := List.append_of_mem hs
    have hother : ∀ t ∈ left ++ right, api.normalized t ≠ api.normalized s := by
      intro t ht heq
      rw [List.map_append, List.map_cons, List.nodup_middle, ← List.map_append] at h
      exact (List.nodup_cons.1 h).1 (heq ▸ List.mem_map_of_mem ht)
    obtain ⟨hleft, hright⟩ := List.forall_mem_append.1 hother
    have hwithout : without api [api.normalized s] (left ++ s :: right) = left ++ right := by
      rw [without, List.filter_append, List.filter_cons_of_neg (by simp),
        List.filter_eq_self.2 (by simpa using hleft), List.filter_eq_self.2 (by simpa using hright)]
    have hwithin : within api [api.normalized s] (left ++ s :: right) = [s] := by
      rw [within, List.filter_append, List.filter_cons_of_pos (by simp),
        List.filter_eq_nil_iff.2 (by simpa using hleft),
        List.filter_eq_nil_iff.2 (by simpa using hright)]
      rfl
    rw [takeName, toRemove_of_nodup h, hwithout, hwithin, List.foldlM_cons, takeAt, itemAt,
      List.getElem?_append_right le_rfl, Nat.sub_self,
      List.eraseIdx_append_of_length_le le_rfl, Nat.sub_self]
    rfl
  · have hno : ∀ s ∈ symbols, api.normalized s ≠ name := fun s hs heq =>
      hname (heq ▸ List.mem_map_of_mem hs)
    rw [takeName, toRemove_of_not_mem hname, without, within,
      List.filter_eq_self.2 (by simpa using hno), List.filter_eq_nil_iff.2 (by simpa using hno),
      List.append_nil]
    rfl

theorem without_cons (name : String) (names : List String) (symbols : List α) :
    without api (name :: names) symbols = without api names (without api [name] symbols) := by
  rw [without, without, without, List.filter_filter]
  refine List.filter_congr fun s _ => ?_
  simp [Bool.and_comm]

/-- The elements that fulfil one condition or another. -/
theorem perm_filter_append {β : Type} (l : List β) (p q : β → Bool) :
    (l.filter p ++ (l.filter fun x => !p x).filter q).Perm (l.filter fun x => p x || q x) := by
  have hp : (l.filter fun x => p x || q x).filter p = l.filter p := by
    rw [List.filter_filter]
    refine List.filter_congr fun x _ => ?_
    cases p x <;> simp
  have hq : (l.filter fun x => p x || q x).filter (fun x => !p x) =
      (l.filter fun x => !p x).filter q := by
    rw [List.filter_filter, List.filter_filter]
    refine List.filter_congr fun x _ => ?_
    cases p x <;> cases q x <;> rfl
  rw [← hp, ← hq]
  exact List.filter_append_perm p _

theorem perm_within_cons (name : String) (names : List String) (symbols : List α) :
    (within api [name] symbols ++ within api names (without api [name] symbols)).Perm
      (within api (name :: names) symbols) := by
  have hperm := perm_filter_append symbols (fun s => decide (api.normalized s ∈ [name]))
    fun s => decide (api.normalized s ∈ names)
  simpa [within, without] using hperm

theorem nodup_without (h : (symbols.map api.normalized).Nodup) (names : List String) :
    ((without api names symbols).map api.normalized).Nodup :=
  h.sublist (List.filter_sublist.map _)

/-- **Taking a block.** -/
theorem exists_takeNames (h : (symbols.map api.normalized).Nodup) (bucket : List α)
    (names : List String) :
    ∃ taken, names.foldlM (takeName api) (symbols, bucket) =
        .ok (without api names symbols, bucket ++ taken) ∧
      taken.Perm (within api names symbols) := by
  induction names generalizing symbols bucket with
  | nil =>
    refine ⟨[], ?_, ?_⟩
    · rw [List.append_nil, without, List.filter_eq_self.2 (by simp)]
      rfl
    · rw [within, List.filter_eq_nil_iff.2 (by simp)]
  | cons name names ih =>
    obtain ⟨taken, htake, hperm⟩ := ih (nodup_without h [name])
      (bucket ++ within api [name] symbols)
    refine ⟨within api [name] symbols ++ taken, ?_, ?_⟩
    · rw [List.foldlM_cons, takeName_eq h, without_cons name names, ← List.append_assoc]
      exact htake
    · exact (hperm.append_left _).trans (perm_within_cons name names symbols)

/-! ### The scan -/

section Scan

variable {index : ResourceIndex} {exchange strategy : String} {symbol : α} {scan : ReuseScan α}
  {payload : String × ResourceEntry} {start : List α} {buckets taken : List (List α)}

/-- What the scan has made of the payloads with the `blocks`. -/
structure ScanSpec (api : SymbolText α) (blocks : List (List String)) (symbol : String)
    (start : List α) (buckets : List (List α)) (scan : ReuseScan α) (taken : List (List α)) :
    Prop where
  symbols : scan.symbols = start.filter fun s => !shareBlock blocks symbol (api.normalized s)
  buckets : scan.buckets = buckets ++ taken
  perm : taken.flatten.Perm (start.filter fun s => shareBlock blocks symbol (api.normalized s))
  inside : ∀ b ∈ taken, ∃ P ∈ blocks, ∀ s ∈ b, api.normalized s ∈ P
  ne_nil : (∀ b ∈ taken, b ≠ []) ↔ EveryBlockHasSome blocks symbol (start.map api.normalized)
  found : scan.blockHash.isSome = inBlock blocks symbol
  taken : inBlock blocks symbol = false → taken = []

/-- A block without the symbol is passed. -/
theorem ScanSpec.pass (h : ScanSpec api blocks name start buckets scan taken) (hP : name ∉ P) :
    ScanSpec api (blocks ++ [P]) name start buckets scan taken := by
  have hshare : ∀ t, shareBlock (blocks ++ [P]) name t = shareBlock blocks name t := fun t => by
    rw [shareBlock_append_singleton, decide_eq_false fun h => hP h.1, Bool.or_false]
  have hin : inBlock (blocks ++ [P]) name = inBlock blocks name := by
    rw [inBlock_append_singleton, decide_eq_false hP, Bool.or_false]
  refine ⟨?_, h.buckets, ?_, fun b hb => ?_, ?_, h.found.trans hin.symm,
    fun hnot => h.taken (hin.symm.trans hnot)⟩
  · simp only [hshare]
    exact h.symbols
  · simp only [hshare]
    exact h.perm
  · obtain ⟨Q, hQ, hb⟩ := h.inside b hb
    exact ⟨Q, List.mem_append_left _ hQ, hb⟩
  · rw [h.ne_nil, everyBlockHasSome_append_singleton]
    exact (and_iff_left fun hmem => absurd hmem hP).symm

/-- A block with the symbol is taken. -/
theorem ScanSpec.take (h : ScanSpec api blocks name start buckets scan taken) (hP : name ∈ P)
    {bucket : List α} (hbucket : bucket.Perm (within api P scan.symbols)) (hash : String) :
    ScanSpec api (blocks ++ [P]) name start buckets
      ⟨without api P scan.symbols, scan.buckets ++ [bucket], some hash⟩ (taken ++ [bucket]) := by
  have hshare : ∀ t, shareBlock (blocks ++ [P]) name t =
      (shareBlock blocks name t || decide (t ∈ P)) := fun t => by
    rw [shareBlock_append_singleton]
    simp [hP]
  have hin : inBlock (blocks ++ [P]) name = true := by
    rw [inBlock_append_singleton, decide_eq_true hP, Bool.or_true]
  refine ⟨?_, ?_, ?_, ?_, ?_, hin.symm, fun hnot => by rw [hin] at hnot; cases hnot⟩
  · dsimp only
    rw [without, h.symbols, List.filter_filter]
    refine List.filter_congr fun s _ => ?_
    rw [hshare, Bool.not_or, decide_not, Bool.and_comm]
  · dsimp only
    rw [h.buckets, List.append_assoc]
  · simp only [hshare]
    rw [List.flatten_append, List.flatten_singleton]
    refine (h.perm.append hbucket).trans ?_
    rw [within, h.symbols]
    exact perm_filter_append _ _ _
  · intro b hb
    rcases List.mem_append.1 hb with hb | hb
    · obtain ⟨Q, hQ, hb⟩ := h.inside b hb
      exact ⟨Q, List.mem_append_left _ hQ, hb⟩
    · rw [List.mem_singleton.1 hb]
      refine ⟨P, List.mem_append_right _ (List.mem_singleton_self P), fun s hs => ?_⟩
      exact of_decide_eq_true (List.mem_filter.1 (hbucket.mem_iff.1 hs)).2
  · -- the bucket is not empty if a symbol of the block was still there
    have hbucket' : bucket ≠ [] ↔ ∃ t ∈ start.map api.normalized,
        t ∈ P ∧ shareBlock blocks name t = false := by
      rw [← List.length_pos_iff, hbucket.length_eq, List.length_pos_iff_exists_mem, within,
        h.symbols]
      simp only [List.mem_filter, List.mem_map, decide_eq_true_eq, Bool.not_eq_true',
        exists_exists_and_eq_and]
      exact exists_congr fun t => by rw [and_assoc, and_comm (a := shareBlock _ _ _ = false)]
    rw [everyBlockHasSome_append_singleton, ← h.ne_nil, List.forall_mem_append,
      List.forall_mem_singleton, hbucket']
    exact and_congr_right fun _ => ⟨fun hsome _ => hsome, fun hsome => hsome hP⟩

/-- The symbols of a payload can be read if it has an exchange with a channel. -/
theorem exists_payloadSymbols_iff {entry : ResourceEntry} :
    (∃ r, payloadSymbols entry = .ok r) ↔ ∃ exchange channel channels payloads,
      entry.payloadConfig = (exchange, channel :: channels) :: payloads := by
  obtain ⟨payloadConfig, symbolDistributions⟩ := entry
  constructor
  · rintro ⟨r, hr⟩
    cases payloadConfig with
    | nil => cases hr
    | cons payload payloads =>
      obtain ⟨exchange, channels⟩ := payload
      cases channels with
      | nil => cases hr
      | cons channel channels => exact ⟨exchange, channel, channels, payloads, rfl⟩
  · rintro ⟨exchange, channel, channels, payloads, hconfig⟩
    obtain rfl : payloadConfig = _ := hconfig
    exact ⟨_, rfl⟩

/-- A payload that is no block changes nothing. -/
theorem scanPayload_of_none (hread : strategy ∈ payload.2.symbolDistributions →
      ∃ r, payloadSymbols payload.2 = .ok r) (h : blockOf exchange strategy payload = none) :
    scanPayload api exchange strategy symbol scan payload = .ok scan := by
  unfold blockOf at h
  unfold scanPayload
  split_ifs at h ⊢ with hstrategy
  · obtain ⟨⟨payloadExchange, names⟩, hr⟩ := hread hstrategy
    rw [hr] at h ⊢
    dsimp only at h
    split_ifs at h with hexchange
    exact if_neg fun hfound => hexchange hfound.1
  · rfl

/-- A block is taken if it has the symbol. -/
theorem scanPayload_of_some (h : blockOf exchange strategy payload = some P) :
    scanPayload api exchange strategy symbol scan payload =
      if api.normalized symbol ∈ P then
        (P.foldlM (takeName api) (scan.symbols, [])).map fun r =>
          ⟨r.1, scan.buckets ++ [r.2], some payload.1⟩
      else .ok scan := by
  unfold blockOf at h
  unfold scanPayload
  split_ifs at h with hstrategy
  rw [if_pos hstrategy]
  cases hr : payloadSymbols payload.2 with
  | error e => rw [hr] at h; cases h
  | ok r =>
    obtain ⟨payloadExchange, names⟩ := r
    rw [hr] at h
    dsimp only at h
    split_ifs at h with hexchange
    obtain rfl := Option.some.inj h
    split_ifs with hsymbol
    · exact if_pos ⟨hexchange, hsymbol⟩
    · exact if_neg fun hfound => hsymbol hfound.2

theorem scanSpec_nil (api : SymbolText α) (name : String) (start : List α)
    (buckets : List (List α)) : ScanSpec api [] name start buckets ⟨start, buckets, none⟩ [] where
  symbols := (List.filter_eq_self.2 fun _ _ => rfl).symm
  buckets := (List.append_nil buckets).symm
  perm := by
    rw [List.filter_eq_nil_iff.2 fun _ _ h => by cases h]
    exact .refl _
  inside _ h := absurd h List.not_mem_nil
  ne_nil := iff_of_true (fun _ h => absurd h List.not_mem_nil)
    fun j hj => absurd hj (Nat.not_lt_zero j)
  found := rfl
  taken _ := rfl

/-- **One payload.** -/
theorem ScanSpec.step (h : ScanSpec api blocks (api.normalized symbol) start buckets scan taken)
    (hstart : (start.map api.normalized).Nodup) (exchange : String)
    (hread : strategy ∈ payload.2.symbolDistributions → ∃ r, payloadSymbols payload.2 = .ok r) :
    ∃ scan' taken', scanPayload api exchange strategy symbol scan payload = .ok scan' ∧
      ScanSpec api (blocks ++ (blockOf exchange strategy payload).toList) (api.normalized symbol)
        start buckets scan' taken' := by
  cases hblock : blockOf exchange strategy payload with
  | none =>
    refine ⟨scan, taken, scanPayload_of_none hread hblock, ?_⟩
    rwa [Option.toList_none, List.append_nil]
  | some P =>
    rw [scanPayload_of_some hblock, Option.toList_some]
    split_ifs with hP
    · have hnodup : (scan.symbols.map api.normalized).Nodup := by
        rw [h.symbols]
        exact hstart.sublist (List.filter_sublist.map _)
      obtain ⟨bucket, htake, hbucket⟩ := exists_takeNames hnodup [] P
      rw [htake]
      exact ⟨_, _, rfl, h.take hP hbucket payload.1⟩
    · exact ⟨scan, taken, rfl, h.pass hP⟩

/-- **The scan of the index.** -/
theorem exists_scan (hchannels : HasChannels index strategy)
    (hstart : (start.map api.normalized).Nodup) (exchange : String) (symbol : α)
    (buckets : List (List α)) : ∃ scan taken,
    index.foldlM (scanPayload api exchange strategy symbol) ⟨start, buckets, none⟩ = .ok scan ∧
      ScanSpec api (blocksOf index exchange strategy) (api.normalized symbol) start buckets scan
        taken := by
  induction index using List.reverseRecOn with
  | nil => exact ⟨_, _, rfl, scanSpec_nil api _ start buckets⟩
  | append_singleton index payload ih =>
    obtain ⟨scan, taken, hscan, hspec⟩ := ih fun p hp => hchannels p (List.mem_append_left _ hp)
    obtain ⟨scan', taken', hscan', hspec'⟩ := hspec.step hstart exchange fun hstrategy =>
      exists_payloadSymbols_iff.2 (hchannels payload (by simp) hstrategy)
    -- the payload's block comes behind those of the payloads before it
    refine ⟨scan', taken', ?_, ?_⟩
    · rw [List.foldlM_append, bind_eq_ok_iff]
      exact ⟨scan, hscan, by rw [List.foldlM_cons, hscan']; rfl⟩
    · rw [blocksOf, List.filterMap_append, ← blocksOf]
      cases hblock : blockOf exchange strategy payload with
      | none => simpa [hblock] using hspec'
      | some P => simpa [hblock] using hspec'

end Scan

end DataFeed

end Svoe
