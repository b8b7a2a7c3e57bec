import Mathlib.Algebra.Order.Field.Rat
import Mathlib.Data.List.Sort
import Mathlib.Tactic.Linarith

/-!
# Data frames and their splitting

A data frame is the list of its rows, `ts` reads a row's `timestamp` column.  `genSplitDfByMem`
is the generator of `common/pandas/df_utils.py` that cuts a sorted frame into chunks of at least
`chunk_num_rows` rows without ever cutting through a timestamp.  The generator may run forever (a
chunk size of zero rows makes no progress), so it is modelled by what it yields in its first
`fuel` iterations.

The main fact is `splitEnd_spec`: every cut lies between two different timestamps.
-/

namespace Svoe

/-- The exceptions the modelled Python code raises. -/
inductive PyError where
  /-- `ValueError(msg)`.  Numbers are written as fractions in `msg`, and what has no text here (a
  frame, an interval, a feature, an event of data) is left out. -/
  | value (msg : String)
  /-- `KeyError: key`. -/
  | key (key : String)
  /-- `IndexError`. -/
  | index
  /-- `ZeroDivisionError`. -/
  | zeroDivision
  /-- `TypeError`. -/
  | type
  /-- SQLAlchemy's `IntegrityError`. -/
  | integrity
  deriving DecidableEq, Repr

instance decidableEqExcept {ε α : Type*} [DecidableEq ε] [DecidableEq α] :
    DecidableEq (Except ε α)
  | .ok a, .ok b => decidable_of_iff (a = b) (by rw [Except.ok.injEq])
  | .error e, .error e' => decidable_of_iff (e = e') (by rw [Except.error.injEq])
  | .ok _, .error _ | .error _, .ok _ => .isFalse nofun

theorem bind_eq_ok_iff.{u} {ε : Type*} {α β : Type u} {x : Except ε α} {f : α → Except ε β} {b : β} :
    x >>= f = .ok b ↔ ∃ a, x = .ok a ∧ f a = .ok b := by
  cases x with
  | error e => exact iff_of_false (fun h => by cases h) (by rintro ⟨a, h, -⟩; cases h)
  | ok a =>
    constructor
    · exact fun h => ⟨a, rfl, h⟩
    · rintro ⟨a', h, hb⟩
      obtain rfl := Except.ok.inj h
      exact hb

theorem map_eq_ok_iff {ε α β : Type*} {x : Except ε α} {f : α → β} {b : β} :
    x.map f = .ok b ↔ ∃ a, x = .ok a ∧ f a = b := by
  cases x with
  | error e => exact iff_of_false (fun h => by cases h) (by rintro ⟨a, h, -⟩; cases h)
  | ok a => simp [Except.map]

/-- What every round of a loop keeps holds of its result. -/
theorem foldlM_invariant.{u} {ε : Type*} {α : Type*} {σ : Type u} {f : σ → α → Except ε σ}
    {P : σ → Prop} {l : List α} (hstep : ∀ s a s', a ∈ l → P s → f s a = .ok s' → P s') {s s' : σ}
    (hs : P s) (h : l.foldlM f s = .ok s') : P s' := by
  induction l generalizing s with
  | nil => exact Except.ok.inj h ▸ hs
  | cons a l ih =>
    rw [List.foldlM_cons, bind_eq_ok_iff] at h
    obtain ⟨s₁, hs₁, h⟩ := h
    exact ih (fun s b s' hb => hstep s b s' (List.mem_cons_of_mem a hb))
      (hstep s a s₁ List.mem_cons_self hs hs₁) h

/-- A loop whose rounds are those of another one, along a map of the states, does the same. -/
theorem map_foldlM.{u, v} {ε : Type*} {α : Type*} {σ : Type u} {τ : Type v}
    {f : σ → α → Except ε σ} {f' : τ → α → Except ε τ} {g : σ → τ} {P : σ → Prop} {l : List α}
    (hstep : ∀ s, ∀ a ∈ l, P s → (f s a).map g = f' (g s) a)
    (hP : ∀ s a s', a ∈ l → P s → f s a = .ok s' → P s') {s : σ} (hs : P s) :
    (l.foldlM f s).map g = l.foldlM f' (g s) := by
  induction l generalizing s with
  | nil => rfl
  | cons a l ih =>
    have hfirst := hstep s a List.mem_cons_self hs
    rw [List.foldlM_cons, List.foldlM_cons, ← hfirst]
    cases hs₁ : f s a with
    | error e => rfl
    | ok s₁ =>
      exact ih (fun s b hb => hstep s b (List.mem_cons_of_mem a hb))
        (fun s b s' hb => hP s b s' (List.mem_cons_of_mem a hb))
        (hP s a s₁ List.mem_cons_self hs hs₁)

/-- A loop whose rounds compute something, and put it into the state. -/
theorem foldlM_map_eq.{u, v} {ε : Type*} {β : Type*} {γ : Type u} {σ : Type v}
    (g : β → Except ε γ) (put : σ → γ → σ) (l : List β) (s : σ) :
    l.foldlM (fun s b => (g b).map (put s)) s = (l.mapM g).map fun cs => cs.foldl put s := by
  induction l generalizing s with
  | nil => rfl
  | cons b l ih =>
    rw [List.foldlM_cons, List.mapM_cons]
    cases hb : g b with
    | error e => rfl
    | ok c =>
      refine (ih (put s c)).trans ?_
      cases hl : l.mapM g <;> rfl

/-- Two computations with the same outcome. -/
theorem map_eq_map_cases {ε β γ δ : Type*} {x : Except ε β} {y : Except ε γ} {f : β → δ} {g : γ → δ}
    (h : x.map f = y.map g) : (∃ e, x = .error e ∧ y = .error e) ∨
      ∃ b c, x = .ok b ∧ y = .ok c ∧ f b = g c := by
  cases x with
  | error e =>
    cases y with
    | error e' => exact .inl ⟨e, rfl, congrArg _ (Except.error.inj h).symm⟩
    | ok c => cases h
  | ok b =>
    cases y with
    | error e => cases h
    | ok c => exact .inr ⟨b, c, rfl, rfl, Except.ok.inj h⟩

theorem map_mapM {ε β γ δ : Type*} (f : β → Except ε γ) (g : γ → δ) (l : List β) :
    (l.mapM f).map (List.map g) = l.mapM fun b => (f b).map g := by
  induction l with
  | nil => rfl
  | cons b l ih =>
    rw [List.mapM_cons, List.mapM_cons, ← ih]
    cases f b with
    | error e => rfl
    | ok c => cases l.mapM f <;> rfl

/-- A loop all of whose rounds succeed. -/
theorem exists_foldlM.{u} {ε : Type*} {α : Type*} {σ : Type u} {f : σ → α → Except ε σ}
    {l : List α} (h : ∀ s, ∀ a ∈ l, ∃ s', f s a = .ok s') (s : σ) :
    ∃ s', l.foldlM f s = .ok s' := by
  induction l generalizing s with
  | nil => exact ⟨s, rfl⟩
  | cons a l ih =>
    obtain ⟨s₁, hs₁⟩ := h s a List.mem_cons_self
    obtain ⟨s', hs'⟩ := ih (fun s b hb => h s b (List.mem_cons_of_mem a hb)) s₁
    exact ⟨s', by rw [List.foldlM_cons, hs₁]; exact hs'⟩

/-- A loop whose rounds fail or not whatever the state. -/
theorem exists_foldlM_iff.{u} {ε : Type*} {α : Type*} {σ : Type u} {f : σ → α → Except ε σ}
    {Q : α → Prop} {as : List α}
    (h : ∀ s, ∀ a ∈ as, (∃ s', f s a = .ok s') ↔ Q a) (s : σ) :
    (∃ s', as.foldlM f s = .ok s') ↔ ∀ a ∈ as, Q a := by
  induction as generalizing s with
  | nil => exact iff_of_true ⟨s, rfl⟩ nofun
  | cons a as ih =>
    have hrest := ih fun s b hb => h s b (List.mem_cons_of_mem a hb)
    rw [List.forall_mem_cons, ← h s a List.mem_cons_self, List.foldlM_cons]
    simp only [bind_eq_ok_iff]
    constructor
    · rintro ⟨s', s₁, hs₁, hs'⟩
      exact ⟨⟨s₁, hs₁⟩, (hrest s₁).1 ⟨s', hs'⟩⟩
    · rintro ⟨⟨s₁, hs₁⟩, hall⟩
      obtain ⟨s', hs'⟩ := (hrest s₁).2 hall
      exact ⟨s', s₁, hs₁, hs'⟩

/-- A loop whose rounds all succeed. -/
theorem mapM_eq_ok {ε α β : Type*} {f : α → Except ε β} {g : α → β} {l : List α}
    (h : ∀ a ∈ l, f a = .ok (g a)) : l.mapM f = .ok (l.map g) := by
  induction l with
  | nil => rfl
  | cons a l ih =>
    rw [List.mapM_cons, h a List.mem_cons_self, ih fun b hb => h b (List.mem_cons_of_mem _ hb)]
    rfl

theorem mapM_eq_ok_iff {ε α β : Type*} {f : α → Except ε β} {l : List α} {r : List β} :
    l.mapM f = .ok r ↔ List.Forall₂ (fun a b => f a = .ok b) l r := by
  induction l generalizing r with
  | nil =>
    rw [List.mapM_nil, List.forall₂_nil_left_iff]
    exact ⟨fun h => (Except.ok.inj h).symm, fun h => congrArg Except.ok h.symm⟩
  | cons a l ih =>
    rw [List.mapM_cons]
    cases ha : f a with
    | error e =>
      refine iff_of_false (fun h => by cases h) fun h => ?_
      cases h with
      | cons hb _ => rw [ha] at hb; cases hb
    | ok b =>
      cases hl : l.mapM f with
      | error e =>
        refine iff_of_false (fun h => by cases h) fun h => ?_
        cases h with
        | cons _ ht => rw [ih.2 ht] at hl; cases hl
      | ok r' =>
        constructor
        · intro h
          obtain rfl := Except.ok.inj h
          exact .cons ha (ih.1 hl)
        · intro h
          cases h with
          | cons hb ht =>
            obtain rfl := Except.ok.inj (ha.symm.trans hb)
            obtain rfl := Except.ok.inj (hl.symm.trans (ih.2 ht))
            rfl

/-- A loop over independent rounds succeeds if they all do. -/
theorem exists_mapM_iff {ε α β : Type*} {f : α → Except ε β} {l : List α} :
    (∃ r, l.mapM f = .ok r) ↔ ∀ a ∈ l, ∃ b, f a = .ok b := by
  simp only [mapM_eq_ok_iff]
  induction l with
  | nil => simp
  | cons a l ih =>
    rw [List.forall_mem_cons, ← ih]
    constructor
    · rintro ⟨_, _ | ⟨hb, hr⟩⟩
      exact ⟨⟨_, hb⟩, _, hr⟩
    · rintro ⟨⟨b, hb⟩, r, hr⟩
      exact ⟨b :: r, .cons hb hr⟩

/-- Every result comes from a round. -/
theorem exists_of_mem_mapM {ε α β : Type*} {f : α → Except ε β} {l : List α} {r : List β}
    (h : l.mapM f = .ok r) {b : β} (hb : b ∈ r) : ∃ a ∈ l, f a = .ok b := by
  rw [mapM_eq_ok_iff] at h
  induction h with
  | nil => cases hb
  | cons ha _ ih =>
    rcases List.mem_cons.1 hb with rfl | hb
    · exact ⟨_, List.mem_cons_self, ha⟩
    · obtain ⟨a, hmem, hab⟩ := ih hb
      exact ⟨a, List.mem_cons_of_mem _ hmem, hab⟩

theorem exists_mem_of_forall₂ {α β : Type*} {R : α → β → Prop} {l : List α} {r : List β}
    (h : List.Forall₂ R l r) {a : α} (ha : a ∈ l) : ∃ b ∈ r, R a b := by
  induction h with
  | nil => cases ha
  | cons hab _ ih =>
    rcases List.mem_cons.1 ha with rfl | ha
    · exact ⟨_, List.mem_cons_self, hab⟩
    · obtain ⟨b, hb, hR⟩ := ih ha
      exact ⟨b, List.mem_cons_of_mem _ hb, hR⟩

theorem map_eq_map_of_forall₂ {α β γ : Type*} {f : α → γ} {g : β → γ} {l : List α} {r : List β}
    (h : List.Forall₂ (fun a b => f a = g b) l r) : l.map f = r.map g := by
  induction h with
  | nil => rfl
  | cons hab _ ih => rw [List.map_cons, List.map_cons, hab, ih]

/-- Two loops one after the other, of which the result of each round is known. -/
theorem eq_map_of_mapM_mapM {ε α β γ : Type*} {f : α → Except ε β} {f' : β → Except ε γ}
    {g : α → γ} {l : List α} {m : List β} {r : List γ} (hf : l.mapM f = .ok m)
    (hf' : m.mapM f' = .ok r) (hg : ∀ a b c, f a = .ok b → f' b = .ok c → c = g a) :
    r = l.map g := by
  rw [mapM_eq_ok_iff] at hf hf'
  induction hf generalizing r with
  | nil =>
    cases hf'
    rfl
  | cons hab _ ih =>
    cases hf' with
    | cons hbc hrest => rw [List.map_cons, hg _ _ _ hab hbc, ih hrest]

/-- Every round has a result. -/
theorem exists_mem_of_mapM {ε α β : Type*} {f : α → Except ε β} {l : List α} {r : List β}
    (h : l.mapM f = .ok r) {a : α} (ha : a ∈ l) : ∃ b ∈ r, f a = .ok b :=
  exists_mem_of_forall₂ (mapM_eq_ok_iff.1 h) ha

/-- A loop whose rounds first compute something that does not depend on its state. -/
theorem foldlM_bind_eq_ok_iff.{u} {ε α : Type*} {β γ σ : Type u} {g : α → Except ε β}
    {h : α → β → γ} {f : σ → γ → Except ε σ} {l : List α} {s s' : σ} :
    l.foldlM (fun s a => g a >>= fun b => f s (h a b)) s = .ok s' ↔
      ∃ cs, l.mapM (fun a => (g a).map (h a)) = .ok cs ∧ cs.foldlM f s = .ok s' := by
  simp only [mapM_eq_ok_iff]
  induction l generalizing s with
  | nil => simp
  | cons a l ih =>
    rw [List.foldlM_cons]
    simp only [bind_eq_ok_iff, ih]
    constructor
    · rintro ⟨s₁, ⟨b, hb, hs₁⟩, cs, hcs, hs'⟩
      exact ⟨h a b :: cs, .cons (map_eq_ok_iff.2 ⟨b, hb, rfl⟩) hcs,
        by rw [List.foldlM_cons, hs₁]; exact hs'⟩
    · rintro ⟨_, _ | ⟨hc, hcs⟩, hs'⟩
      obtain ⟨b, hb, rfl⟩ := map_eq_ok_iff.1 hc
      rw [List.foldlM_cons, bind_eq_ok_iff] at hs'
      obtain ⟨s₁, hs₁, hs'⟩ := hs'
      exact ⟨s₁, ⟨b, hb, hs₁⟩, _, hcs, hs'⟩

/-- A loop whose rounds succeed under a condition, with a known result. -/
theorem mapM_eq_ok_iff_of {ε α β : Type*} {f : α → Except ε β} {P : α → Prop} {g : α → β}
    {l : List α} (h : ∀ a ∈ l, ∀ b, f a = .ok b ↔ P a ∧ b = g a) {r : List β} :
    l.mapM f = .ok r ↔ (∀ a ∈ l, P a) ∧ r = l.map g := by
  rw [mapM_eq_ok_iff]
  induction l generalizing r with
  | nil => simp
  | cons a l ih =>
    rw [List.forall₂_cons_left_iff, List.forall_mem_cons, List.map_cons]
    simp only [h a List.mem_cons_self, ih fun b hb => h b (List.mem_cons_of_mem _ hb)]
    constructor
    · rintro ⟨b, r, ⟨hP, rfl⟩, ⟨hall, rfl⟩, rfl⟩
      exact ⟨⟨hP, hall⟩, rfl⟩
    · rintro ⟨⟨hP, hall⟩, rfl⟩
      exact ⟨_, _, ⟨hP, rfl⟩, ⟨hall, rfl⟩, rfl⟩

section Frame

variable {α : Type*} (ts : α → ℚ)

/-- `is_ts_sorted`. -/
def isTsSorted (df : List α) : Prop := df.Pairwise fun r r' => ts r ≤ ts r'

instance (df : List α) : Decidable (isTsSorted ts df) :=
  inferInstanceAs (Decidable (df.Pairwise fun r r' => ts r ≤ ts r'))

/-- `df.iloc[i]`: a negative position counts from the end. -/
def iloc (df : List α) (i : ℤ) : Option α :=
  if 0 ≤ i then df[i.toNat]?
  else if 0 ≤ df.length + i then df[(df.length + i).toNat]?
  else none

/-- `sub_df_ts`: the rows between two timestamps, both included. -/
def subDfTs (df : List α) (startTs endTs : ℚ) : Except PyError (List α) :=
  match df.filter fun r => startTs ≤ ts r ∧ ts r ≤ endTs with
  | [] => .error (.value "Can not find intersection")
  | r :: rs => .ok (r :: rs)

/-! ### `gen_split_df_by_mem` -/

/-- The inner loop: move `end` while the row there has the timestamp `endTs`. -/
def moveEnd (df : List α) (endTs : Option ℚ) : ℕ → ℤ → ℤ
  | 0, i => i
  | fuel + 1, i =>
    if i < df.length ∧ (iloc df i).map ts = endTs then moveEnd df endTs fuel (i + 1) else i

/-- Where the chunk that starts at `start` ends. -/
def splitEnd (df : List α) (chunkNumRows start : ℕ) : ℕ :=
  let i : ℤ := min (start + chunkNumRows : ℤ) df.length - 1
  (moveEnd ts df ((iloc df i).map ts) (df.length + 2) i).toNat

/-- The `(start, end)` pairs of the first `fuel` iterations of the loop. -/
def splitBounds (df : List α) (chunkNumRows : ℕ) : ℕ → ℕ → List (ℕ × ℕ)
  | 0, _ => []
  | fuel + 1, start =>
    if start < df.length then
      (start, splitEnd ts df chunkNumRows start) ::
        splitBounds df chunkNumRows fuel (splitEnd ts df chunkNumRows start)
    else []

/-- `df.iloc[start: end]`. -/
def slice (df : List α) (b : ℕ × ℕ) : List α := (df.take b.2).drop b.1

/-- `int(chunk_size_kb/row_size_kb)` with `row_size_kb = df_size_kb/num_rows`.  The code divides
floats twice, so that it may count one row more or less where the exact quotient is close to a whole
number. -/
def chunkNumRows (df : List α) (dfSizeKb chunkSizeKb : ℕ) : ℕ :=
  chunkSizeKb * df.length / dfSizeKb

/-- `gen_split_df_by_mem`: the chunks' bounds, as far as the first `fuel` iterations yield them.
`dfSizeKb` is `get_size_kb(df)`, the memory pandas reports for the frame. -/
def genSplitDfByMem (df : List α) (dfSizeKb chunkSizeKb fuel : ℕ) :
    Except PyError (List (ℕ × ℕ)) :=
  if ¬ isTsSorted ts df then .error (.value "Only ts-sorted dfs can be split")
  else if dfSizeKb < chunkSizeKb then
    .error (.value s!"Chunk size {chunkSizeKb}kb is larger then df size {dfSizeKb}kb")
  else if df.length = 0 ∨ dfSizeKb = 0 then .error .zeroDivision
  else .ok (splitBounds ts df (chunkNumRows df dfSizeKb chunkSizeKb) fuel 0)

theorem subDfTs_eq_ok_iff {df res : List α} {startTs endTs : ℚ} :
    subDfTs ts df startTs endTs = .ok res ↔
      res ≠ [] ∧ res = df.filter fun r => startTs ≤ ts r ∧ ts r ≤ endTs := by
  unfold subDfTs
  cases h : df.filter fun r => startTs ≤ ts r ∧ ts r ≤ endTs with
  | nil => simp
  | cons r rs =>
    constructor
    · rintro ⟨⟩; exact ⟨by simp, rfl⟩
    · rintro ⟨-, rfl⟩; rfl

/-! ### Cuts fall between timestamps -/

theorem iloc_natCast (df : List α) (i : ℕ) : iloc df i = df[i]? := by simp [iloc]

/-- The inner loop only passes rows with the timestamp `endTs`, and stops at the first other
one (or at the end of the frame). -/
theorem moveEnd_spec (df : List α) (endTs : Option ℚ) (fuel : ℕ) (i : ℤ)
    (hi : i ≤ df.length) (hf : df.length - i < fuel) :
    let e := moveEnd ts df endTs fuel i
    i ≤ e ∧ e ≤ df.length ∧ (i < e → (iloc df (e - 1)).map ts = endTs) ∧
      (e < df.length → (iloc df e).map ts ≠ endTs) := by
  induction fuel generalizing i with
  | zero => omega
  | succ fuel ih =>
    simp only [moveEnd]
    split_ifs with h
    · obtain ⟨h1, h2, h3, h4⟩ := ih (i + 1) (by omega) (by omega)
      refine ⟨by omega, h2, fun _ => ?_, h4⟩
      rcases eq_or_lt_of_le h1 with heq | hlt
      · rw [← heq, add_sub_cancel_right]; exact h.2
      · exact h3 hlt
    · exact ⟨le_rfl, hi, fun hlt => absurd hlt (lt_irrefl i), fun hlt heq => h ⟨hlt, heq⟩⟩

variable {ts}

theorem isTsSorted.getElem_le_getElem {df : List α} (h : isTsSorted ts df) {i j : ℕ}
    (hi : i < df.length) (hj : j < df.length) (hij : i ≤ j) : ts df[i] ≤ ts df[j] := by
  rcases eq_or_lt_of_le hij with rfl | hij
  · rfl
  · exact List.pairwise_iff_getElem.1 h i j hi hj hij

theorem isTsSorted.take_drop {df : List α} (h : isTsSorted ts df) {n : ℕ} {a b : α}
    (hlast : df[n - 1]? = some a) (hnext : df[n]? = some b) (hn : 0 < n) (hlt : ts a < ts b) :
    ∀ r ∈ df.take n, ∀ r' ∈ df.drop n, ts r < ts r' := by
  obtain ⟨hl, rfl⟩ := List.getElem?_eq_some_iff.1 hlast
  obtain ⟨hr, rfl⟩ := List.getElem?_eq_some_iff.1 hnext
  intro r hr r' hr'
  obtain ⟨i, hi, rfl⟩ := List.getElem_of_mem hr
  obtain ⟨j, hj, rfl⟩ := List.getElem_of_mem hr'
  simp only [List.length_take, List.length_drop] at hi hj
  rw [List.getElem_take, List.getElem_drop]
  calc ts df[i] ≤ ts df[n - 1] := h.getElem_le_getElem _ _ (by omega)
    _ < ts df[n] := hlt
    _ ≤ ts df[n + j] := h.getElem_le_getElem _ _ (by omega)

/-- **Every cut lies between two different timestamps**, behind the chunk's start. -/
theorem splitEnd_spec {df : List α} (h : isTsSorted ts df) (chunkNumRows : ℕ) {start : ℕ}
    (hs : start < df.length) :
    start ≤ splitEnd ts df chunkNumRows start ∧
      splitEnd ts df chunkNumRows start ≤ df.length ∧
      (0 < splitEnd ts df chunkNumRows start →
        ∀ r ∈ df.take (splitEnd ts df chunkNumRows start),
          ∀ r' ∈ df.drop (splitEnd ts df chunkNumRows start), ts r < ts r') := by
  obtain ⟨i, hi⟩ : ∃ i : ℤ, i = min (start + chunkNumRows : ℤ) df.length - 1 := ⟨_, rfl⟩
  have hspec := moveEnd_spec ts df ((iloc df i).map ts) (df.length + 2) i (by omega) (by omega)
  -- the row at the initial `end` has its own timestamp, so the loop passes it
  have hstep : i + 1 ≤ moveEnd ts df ((iloc df i).map ts) (df.length + 2) i := by
    rw [moveEnd, if_pos ⟨by omega, rfl⟩]
    exact (moveEnd_spec ts df ((iloc df i).map ts) (df.length + 1) (i + 1) (by omega)
      (by omega)).1
  have he : (splitEnd ts df chunkNumRows start : ℤ) =
      moveEnd ts df ((iloc df i).map ts) (df.length + 2) i := by
    simp only [splitEnd, ← hi]
    exact Int.toNat_of_nonneg (by omega)
  generalize splitEnd ts df chunkNumRows start = e at he ⊢
  rw [← he] at hspec hstep
  obtain ⟨-, hle, hlast, hnext⟩ := hspec
  refine ⟨by omega, by omega, fun hpos => ?_⟩
  by_cases hend : e = df.length
  · intro r _ r' hr'
    rw [hend, List.drop_length] at hr'
    cases hr'
  · have hlt : e < df.length := by omega
    have h1 := hlast (by omega)
    rw [show (e : ℤ) - 1 = ((e - 1 : ℕ) : ℤ) by omega, iloc_natCast,
      List.getElem?_eq_getElem (by omega : e - 1 < df.length)] at h1
    have h2 := hnext (by omega)
    rw [iloc_natCast, List.getElem?_eq_getElem hlt, ← h1] at h2
    refine h.take_drop (List.getElem?_eq_getElem (by omega)) (List.getElem?_eq_getElem hlt) hpos ?_
    refine lt_of_le_of_ne (List.pairwise_iff_getElem.1 h _ _ _ _ (by omega)) fun heq => h2 ?_
    simp [heq]

/-- The bounds of the chunks follow each other without a hole. -/
theorem splitBounds_getElem? {df : List α} {c fuel start k : ℕ} {b : ℕ × ℕ}
    (h : (splitBounds ts df c fuel start)[k]? = some b) :
    b.1 < df.length ∧ b.2 = splitEnd ts df c b.1 ∧ (k = 0 → b.1 = start) ∧
      (0 < k → ∃ b', (splitBounds ts df c fuel start)[k - 1]? = some b' ∧ b'.2 = b.1) := by
  induction fuel generalizing start k with
  | zero => simp [splitBounds] at h
  | succ fuel ih =>
    rw [splitBounds] at h ⊢
    split_ifs at h ⊢ with hs
    · cases k with
      | zero =>
        obtain rfl : (start, splitEnd ts df c start) = b := by simpa using h
        exact ⟨hs, rfl, fun _ => rfl, fun h0 => absurd h0 (lt_irrefl 0)⟩
      | succ k =>
        obtain ⟨h1, h2, h3, h4⟩ := ih (by simpa using h)
        refine ⟨h1, h2, fun h0 => absurd h0 (Nat.succ_ne_zero k), fun _ => ?_⟩
        rw [Nat.add_sub_cancel]
        cases k with
        | zero => exact ⟨_, rfl, (h3 rfl).symm⟩
        | succ k => simpa using h4 (Nat.succ_pos k)
    · simp at h

end Frame

end Svoe
