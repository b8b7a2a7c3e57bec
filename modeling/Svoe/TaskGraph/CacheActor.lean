import Svoe.Common.Dict
import Svoe.Common.Frame
import Svoe.Transition.Basic

/-!
# The cache actor

The actor keeps, for every feature key and interval, a counter of the tasks that still need the
block and a ref to it, once some task has stored one.  Its methods run one at a time, in any order
of the workers' calls: `check` and `store` are the actions of a transition system, and a worker
that was told to cache stores later on, or never.

* `lookup_assign` : an assignment changes one entry.
* `CacheInv` : what holds of the actor's table in every run, in terms of the calls so far.
* `cacheActor_run` : the counters only fall, to one at most; a stored ref stays, and only refs that
  were stored for a block are returned for it; a worker that was told to cache can do so, and the
  last of as many checks as the counter says is not told so.
-/

namespace Svoe

open Transition

variable {κ ι ρ ω : Type*}

/-- `context`. -/
structure Context (κ ι : Type*) where
  featureKey : κ
  interval : ι
  deriving DecidableEq, Repr

/-- `Dict[str, Dict[Interval, Tuple[int, Optional[ObjectRef]]]]`. -/
abbrev CacheTable (κ ι ρ : Type*) := List (κ × List (ι × (ℕ × Option ρ)))

section Code

variable [DecidableEq κ] [DecidableEq ι]

/-- `self.cache[feature_key][interval]`, if the keys are there. -/
def CacheTable.lookup (cache : CacheTable κ ι ρ) (c : Context κ ι) : Option (ℕ × Option ρ) :=
  (dictGet cache c.featureKey).bind fun d => dictGet d c.interval

/-- `self.cache[feature_key][interval] = v`. -/
def CacheTable.assign (cache : CacheTable κ ι ρ) (c : Context κ ι) (v : ℕ × Option ρ) :
    CacheTable κ ι ρ :=
  dictSet cache c.featureKey (dictSet ((dictGet cache c.featureKey).getD []) c.interval v)

/-- `CacheActor.check_cache`: the table behind the call, `obj_ref` and `should_cache`. -/
def checkCache (cache : CacheTable κ ι ρ) (c : Context κ ι) :
    CacheTable κ ι ρ × Option ρ × Bool :=
  match cache.lookup c with
  | none => (cache, none, false)
  | some (refCounter, objRef) =>
    (if refCounter = 1 then cache else cache.assign c (refCounter - 1, objRef),
      objRef, decide (refCounter > 1) && objRef.isNone)

/-- `CacheActor.cache_obj_ref`. -/
def cacheObjRef (cache : CacheTable κ ι ρ) (objRef : ρ) (c : Context κ ι) :
    Except PyError (CacheTable κ ι ρ) :=
  match cache.lookup c with
  | none => .error (.value "Unable to locate cache key")
  | some (refCounter, _) => .ok (cache.assign c (refCounter, some objRef))

/-- The actor's table, the workers that were told to cache and have not done so, and the calls so
far. -/
structure CacheSystem (κ ι ρ ω : Type*) where
  cache : CacheTable κ ι ρ
  told : List (ω × Context κ ι)
  checks : List (Context κ ι)
  stores : List (Context κ ι × ρ)

/-- A worker's call of `check_cache` (in `_get_from_cache`) or `cache_obj_ref` (in `_cache`). -/
inductive CacheCall (κ ι ρ ω : Type*) where
  | check (worker : ω) (context : Context κ ι)
  | store (worker : ω) (context : Context κ ι) (objRef : ρ)

variable [DecidableEq ω]

/-- A call of a worker: only a worker that was told to cache stores. -/
def cacheStep (s : CacheSystem κ ι ρ ω) : CacheCall κ ι ρ ω → Option (CacheSystem κ ι ρ ω)
  | .check w c =>
    some
      { cache := (checkCache s.cache c).1
        told := if (checkCache s.cache c).2.2 then (w, c) :: s.told else s.told
        checks := c :: s.checks
        stores := s.stores }
  | .store w c objRef =>
    if (w, c) ∈ s.told then
      match cacheObjRef s.cache objRef c with
      | .error _ => none
      | .ok cache => some
        { s with cache := cache, told := s.told.erase (w, c), stores := (c, objRef) :: s.stores }
    else none

/-- The actor with its initial table, before any call. -/
def CacheSystem.init (cache : CacheTable κ ι ρ) : CacheSystem κ ι ρ ω := ⟨cache, [], [], []⟩

end Code

variable [DecidableEq κ] [DecidableEq ι]

/-- **An assignment changes one entry.** -/
theorem lookup_assign (cache : CacheTable κ ι ρ) (c c' : Context κ ι) (v : ℕ × Option ρ) :
    (cache.assign c v).lookup c' = if c = c' then some v else cache.lookup c' := by
  obtain ⟨k, i⟩ := c
  obtain ⟨k', i'⟩ := c'
  simp only [CacheTable.lookup, CacheTable.assign, dictGet_dictSet, Context.mk.injEq]
  by_cases hk : k = k'
  · subst hk
    rw [if_pos rfl, Option.bind_some, dictGet_dictSet]
    by_cases hi : i = i'
    · rw [if_pos hi, if_pos ⟨rfl, hi⟩]
    · rw [if_neg hi, if_neg fun h => hi h.2]
      cases dictGet cache k with
      | none => rfl
      | some d => rfl
  · rw [if_neg hk, if_neg fun h => hk h.1]

/-- What a check leaves of an entry. -/
theorem lookup_checkCache (cache : CacheTable κ ι ρ) (c c' : Context κ ι) :
    (checkCache cache c).1.lookup c' =
      if c = c' then (cache.lookup c').map fun v => (if v.1 = 1 then 1 else v.1 - 1, v.2)
      else cache.lookup c' := by
  unfold checkCache
  split_ifs with hc
  · subst hc
    cases h : cache.lookup c with
    | none => exact h
    | some v =>
      obtain ⟨n, r⟩ := v
      by_cases hn : n = 1
      · simp [hn, h]
      · simp [hn, lookup_assign]
  · cases h : cache.lookup c with
    | none => rfl
    | some v =>
      obtain ⟨n, r⟩ := v
      by_cases hn : n = 1
      · simp [hn]
      · simp [hn, lookup_assign, hc]

theorem lookup_cacheObjRef {cache cache' : CacheTable κ ι ρ} {c : Context κ ι} {objRef : ρ}
    (h : cacheObjRef cache objRef c = .ok cache') (c' : Context κ ι) :
    cache'.lookup c' =
      if c = c' then (cache.lookup c').map fun v => (v.1, some objRef) else cache.lookup c' := by
  unfold cacheObjRef at h
  split at h
  · cases h
  · next n r hc =>
    obtain rfl := Except.ok.inj h
    rw [lookup_assign]
    split_ifs with heq
    · rw [← heq, hc, Option.map_some]
    · rfl

theorem exists_cacheObjRef {cache : CacheTable κ ι ρ} {c : Context κ ι}
    (h : cache.lookup c ≠ none) (objRef : ρ) : ∃ cache', cacheObjRef cache objRef c = .ok cache' := by
  obtain ⟨⟨n, r⟩, hc⟩ := Option.ne_none_iff_exists'.1 h
  exact ⟨_, by rw [cacheObjRef, hc]⟩

/-! ### The calls of the workers -/

variable [DecidableEq ω] {s s' : CacheSystem κ ι ρ ω} {a : CacheCall κ ι ρ ω}

/-- One table is later than another one: no counter is larger, no ref has been dropped. -/
def LaterCache (s s' : CacheSystem κ ι ρ ω) : Prop :=
  ∀ c v, s.cache.lookup c = some v →
    ∃ v', s'.cache.lookup c = some v' ∧ v'.1 ≤ v.1 ∧ (v.2 ≠ none → v'.2 ≠ none)

omit [DecidableEq ω] in
theorem LaterCache.refl (s : CacheSystem κ ι ρ ω) : LaterCache s s := fun _ v hv =>
  ⟨v, hv, le_rfl, id⟩

omit [DecidableEq ω] in
theorem LaterCache.trans {s t u : CacheSystem κ ι ρ ω} (h : LaterCache s t)
    (h' : LaterCache t u) : LaterCache s u := by
  intro c v hv
  obtain ⟨v', hv', hle, href⟩ := h c v hv
  obtain ⟨v'', hv'', hle', href'⟩ := h' c v' hv'
  exact ⟨v'', hv'', hle'.trans hle, href' ∘ href⟩

/-- A call makes the table a later one. -/
theorem laterCache_of_cacheStep (h : cacheStep s a = some s') : LaterCache s s' := by
  intro c v hv
  cases a with
  | check w c' =>
    obtain rfl := Option.some.inj h
    simp only [lookup_checkCache, hv, Option.map_some]
    split_ifs with hc hone
    · exact ⟨_, rfl, hone.ge, id⟩
    · exact ⟨_, rfl, Nat.sub_le _ _, id⟩
    · exact ⟨v, rfl, le_rfl, id⟩
  | store w c' objRef =>
    rw [cacheStep] at h
    split_ifs at h
    cases hok : cacheObjRef s.cache objRef c' with
    | error e => rw [hok] at h; cases h
    | ok cache =>
      rw [hok] at h
      obtain rfl := Option.some.inj h
      simp only [lookup_cacheObjRef hok, hv, Option.map_some]
      split_ifs with hc
      · exact ⟨_, rfl, le_rfl, fun _ => Option.some_ne_none _⟩
      · exact ⟨v, rfl, le_rfl, id⟩

/-- What holds of the actor's table after the calls so far: every counter is its initial value
less the checks, but at least one, and a ref is one that was stored for the same block. -/
structure CacheInv (initial : CacheTable κ ι ρ) (s : CacheSystem κ ι ρ ω) : Prop where
  lookup_of_none : ∀ c, initial.lookup c = none → s.cache.lookup c = none
  lookup_of_some : ∀ c v, initial.lookup c = some v →
    ∃ r, s.cache.lookup c = some (max 1 (v.1 - s.checks.count c), r) ∧
      ∀ ref, r = some ref → (c, ref) ∈ s.stores
  told : ∀ p ∈ s.told, s.cache.lookup p.2 ≠ none

omit [DecidableEq ω] in
theorem CacheInv.init {cache : CacheTable κ ι ρ}
    (hcache : ∀ c v, cache.lookup c = some v → 1 ≤ v.1 ∧ v.2 = none) :
    CacheInv cache (.init cache : CacheSystem κ ι ρ ω) where
  lookup_of_none _ h := h
  lookup_of_some c v hv := by
    obtain ⟨hone, hnone⟩ := hcache c v hv
    refine ⟨none, ?_, fun ref href => by cases href⟩
    rw [CacheSystem.init, hv, List.count_nil, Nat.sub_zero, max_eq_right hone, ← hnone]
  told p hp := absurd hp List.not_mem_nil

omit [DecidableEq ω] in
/-- A worker is told to cache only what the table has. -/
theorem lookup_ne_none_of_checkCache {cache : CacheTable κ ι ρ} {c : Context κ ι}
    (h : (checkCache cache c).2.2 = true) : cache.lookup c ≠ none := by
  intro hnone
  rw [checkCache, hnone] at h
  cases h

theorem CacheInv.of_cacheStep {initial : CacheTable κ ι ρ} (hinv : CacheInv initial s)
    (h : cacheStep s a = some s') : CacheInv initial s' := by
  have hlater := laterCache_of_cacheStep h
  have hkept : ∀ c, s.cache.lookup c ≠ none → s'.cache.lookup c ≠ none := by
    intro c hc
    obtain ⟨v, hv⟩ := Option.ne_none_iff_exists'.1 hc
    obtain ⟨v', hv', -⟩ := hlater c v hv
    exact hv' ▸ Option.some_ne_none v'
  cases a with
  | check w c =>
    obtain rfl := Option.some.inj h
    refine ⟨fun c' hc' => ?_, fun c' v hv => ?_, fun p hp => hkept p.2 ?_⟩
    · simp only [lookup_checkCache, hinv.lookup_of_none c' hc', Option.map_none, ite_self]
    · obtain ⟨r, hr, href⟩ := hinv.lookup_of_some c' v hv
      refine ⟨r, ?_, href⟩
      simp only [lookup_checkCache, hr, Option.map_some, List.count_cons, beq_iff_eq]
      split_ifs with hc hone
      · rw [max_eq_left (by omega)]
      · rw [max_eq_right (by omega), max_eq_right (by omega), Nat.sub_sub]
      · rfl
    · simp only at hp
      split_ifs at hp with hshould
      · rcases List.mem_cons.1 hp with rfl | hp
        · exact lookup_ne_none_of_checkCache hshould
        · exact hinv.told p hp
      · exact hinv.told p hp
  | store w c objRef =>
    rw [cacheStep] at h
    split_ifs at h
    cases hok : cacheObjRef s.cache objRef c with
    | error e => rw [hok] at h; cases h
    | ok cache =>
      rw [hok] at h
      obtain rfl := Option.some.inj h
      refine ⟨fun c' hc' => ?_, fun c' v hv => ?_, fun p hp => hkept p.2 ?_⟩
      · simp only [lookup_cacheObjRef hok, hinv.lookup_of_none c' hc', Option.map_none, ite_self]
      · obtain ⟨r, hr, href⟩ := hinv.lookup_of_some c' v hv
        simp only [lookup_cacheObjRef hok, hr, Option.map_some]
        split_ifs with hc
        · exact ⟨some objRef, rfl, fun ref hsome => Option.some.inj hsome ▸ hc ▸ List.mem_cons_self⟩
        · exact ⟨r, rfl, fun ref hsome => List.mem_cons_of_mem _ (href ref hsome)⟩
      · exact hinv.told p (List.mem_of_mem_erase hp)

/-- **The cache actor's protocol.**  In every run, counters stay at least one and never grow, and
a stored ref is never dropped; a check returns only a ref that was stored for the same block; a
worker that was told to cache can do so; and when a block has been checked as often as its
initial counter says, but once, the next check does not tell to cache. -/
theorem cacheActor_run {cache : CacheTable κ ι ρ}
    (hcache : ∀ c v, cache.lookup c = some v → 1 ≤ v.1 ∧ v.2 = none)
    {as bs : List (CacheCall κ ι ρ ω)} (hs : run cacheStep (.init cache) as = some s)
    (hs' : run cacheStep s bs = some s') :
    (∀ c v, s.cache.lookup c = some v → 1 ≤ v.1 ∧
        ∃ v', s'.cache.lookup c = some v' ∧ v'.1 ≤ v.1 ∧ (v.2 ≠ none → v'.2 ≠ none)) ∧
      (∀ c ref, (checkCache s.cache c).2.1 = some ref → (c, ref) ∈ s.stores) ∧
      (∀ w c ref, (w, c) ∈ s.told → ∃ cache', cacheObjRef s.cache ref c = .ok cache') ∧
      ∀ c v, cache.lookup c = some v → v.1 ≤ s.checks.count c + 1 →
        (checkCache s.cache c).2.2 = false := by
  have hinv : CacheInv cache s :=
    invariant_of_run (I := CacheInv cache) (fun _ _ _ h hstep => h.of_cacheStep hstep)
      (.init hcache) hs
  have hlater : LaterCache s s' :=
    rel_of_run LaterCache.refl LaterCache.trans (fun _ _ _ h => laterCache_of_cacheStep h) hs'
  refine ⟨fun c v hv => ⟨?_, hlater c v hv⟩, fun c ref href => ?_, fun w c ref hw => ?_,
    fun c v hv hle => ?_⟩
  · cases hc : cache.lookup c with
    | none => exact absurd ((hinv.lookup_of_none c hc).symm.trans hv) (Option.some_ne_none v).symm
    | some v₀ =>
      obtain ⟨r, hr, -⟩ := hinv.lookup_of_some c v₀ hc
      rw [← Option.some.inj (hr.symm.trans hv)]
      exact le_max_left _ _
  · cases hc : cache.lookup c with
    | none =>
      rw [checkCache, hinv.lookup_of_none c hc] at href
      cases href
    | some v₀ =>
      obtain ⟨r, hr, hstores⟩ := hinv.lookup_of_some c v₀ hc
      rw [checkCache, hr] at href
      exact hstores ref href
  · exact exists_cacheObjRef (hinv.told _ hw) ref
  · obtain ⟨r, hr, -⟩ := hinv.lookup_of_some c v hv
    rw [checkCache, hr, max_eq_left (by omega)]
    rfl

/-- A block that two tasks need. -/
def sharedBlock : CacheTable String ℕ String := [("f", [(0, (2, none))])]

/-- The first task is told to cache, and stores; the second one gets its ref. -/
theorem cacheActor_run_sharedBlock :
    ∃ s : CacheSystem String ℕ String ℕ,
      run cacheStep (.init sharedBlock) [.check 0 ⟨"f", 0⟩, .store 0 ⟨"f", 0⟩ "ref"] = some s ∧
        (checkCache s.cache ⟨"f", 0⟩).2.1 = some "ref" ∧ (⟨"f", 0⟩, "ref") ∈ s.stores ∧
        (checkCache s.cache ⟨"f", 0⟩).2.2 = false := by
  have hcache : ∀ c v, sharedBlock.lookup c = some v → 1 ≤ v.1 ∧ v.2 = none := by
    rintro ⟨k, i⟩ v hv
    obtain ⟨d, hd, hi⟩ := Option.bind_eq_some_iff.1 hv
    obtain ⟨-, rfl⟩ : "f" = k ∧ [(0, (2, none))] = d := by
      simpa [sharedBlock, dictGet, and_assoc] using hd
    obtain ⟨-, rfl⟩ : 0 = i ∧ (2, none) = v := by simpa [dictGet, and_assoc] using hi
    exact ⟨one_le_two, rfl⟩
  have hs : run cacheStep (.init sharedBlock) [.check 0 ⟨"f", 0⟩, .store 0 ⟨"f", 0⟩ "ref"] =
      some (⟨[("f", [(0, (1, some "ref"))])], [], [⟨"f", 0⟩], [(⟨"f", 0⟩, "ref")]⟩ :
        CacheSystem String ℕ String ℕ) := rfl
  obtain ⟨-, hstored, -, hlast⟩ := cacheActor_run hcache hs (run_nil ..)
  exact ⟨_, hs, rfl, hstored _ _ rfl, hlast ⟨"f", 0⟩ (2, none) rfl le_rfl⟩

end Svoe
