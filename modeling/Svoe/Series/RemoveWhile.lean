import Mathlib.Data.List.Perm.Basic

/-!
# Removing from a list while iterating over it

A loop `for x in l` that removes elements from `l` skips the element behind each one that it
removes: the iterator keeps its index, and the list moves up by one.  `l.remove(x)` removes the
first element that is equal to `x`.

* `removeWhile` : the loop that removes the elements with a property.
* `removeFrom_succ` : it has no more rounds than there are elements.
* `skippedBy` : the elements with the property that it skips.
* `leaves_removeWhile` : the other elements stay as they are, and of those with the property as many
  stay as were skipped.
* `forall_removeAll_iff`, `removeAll_eq_filter_iff` : when several such loops leave none of what
  they should remove.
-/

namespace Svoe

namespace Series

variable {α κ : Type*} {same : α → α → Bool} {p : α → Bool} {key : α → κ}

/-- The iteration from the index `i`, in its first `fuel` rounds. -/
def removeFrom (same : α → α → Bool) (p : α → Bool) : ℕ → ℕ → List α → List α
  | 0, _, l => l
  | fuel + 1, i, l =>
    match l[i]? with
    | none => l
    | some x => removeFrom same p fuel (i + 1) (if p x then l.eraseP (same · x) else l)

/-- `for x in l: if p(x): l.remove(x)`.  There are no more rounds than elements. -/
def removeWhile (same : α → α → Bool) (p : α → Bool) (l : List α) : List α :=
  removeFrom same p l.length 0 l

/-- The elements with the property behind elements that are removed. -/
def skippedBy (p : α → Bool) : List α → List α
  | [] => []
  | [_] => []
  | a :: b :: l =>
    if p a then [b].filter p ++ skippedBy p l else skippedBy p (b :: l)

/-- Removing an element that is there: the rest of the list moves up by one, and one element with
the key goes. -/
theorem eraseP_append_cons (hsame : ∀ x, same x x = true)
    (hkey : ∀ x y, same x y = true → key x = key y) (hp : ∀ x y, key x = key y → p x = p y)
    {a : α} (ha : p a = true) (done l : List α) :
    ∃ done', (done ++ a :: l).eraseP (same · a) = done' ++ l ∧ done'.length = done.length ∧
      (done'.filter fun x => !p x) = (done.filter fun x => !p x) ∧
      ((done'.filter p).map key).Perm ((done.filter p).map key) := by
  induction done with
  | nil => exact ⟨[], by simp [hsame a], rfl, rfl, List.Perm.refl _⟩
  | cons d done ih =>
    by_cases hd : same d a = true
    · have hda : key d = key a := hkey d a hd
      have hpd : p d = true := (hp d a hda).trans ha
      refine ⟨done ++ [a], by simp [hd], by simp, by simp [ha, hpd], ?_⟩
      simp [ha, hpd, hda, List.perm_append_singleton]
    · obtain ⟨done', herase, hlength, hkept, hperm⟩ := ih
      refine ⟨d :: done', ?_, by simp [hlength], ?_, ?_⟩
      · rw [List.cons_append, List.eraseP_cons_of_neg (by simpa using hd), herase]
        rfl
      · rw [List.filter_cons, List.filter_cons, hkept]
      · rw [List.filter_cons, List.filter_cons]
        split_ifs
        · exact hperm.cons (key d)
        · exact hperm

theorem removeFrom_of_length_le {fuel i : ℕ} {l : List α} (h : l.length ≤ i) :
    removeFrom same p fuel i l = l := by
  cases fuel with
  | zero => rfl
  | succ fuel => rw [removeFrom, List.getElem?_eq_none h]

/-- More rounds than there are elements left change nothing. -/
theorem removeFrom_succ {fuel i : ℕ} {l : List α} (h : l.length ≤ i + fuel) :
    removeFrom same p (fuel + 1) i l = removeFrom same p fuel i l := by
  induction fuel generalizing i l with
  | zero => exact removeFrom_of_length_le h
  | succ fuel ih =>
    rw [removeFrom]
    conv_rhs => rw [removeFrom]
    cases l[i]? with
    | none => rfl
    | some x =>
      refine ih ?_
      split_ifs
      · have := List.length_eraseP_le (p := (same · x)) (l := l)
        omega
      · omega

theorem removeFrom_append_cons (fuel : ℕ) (done : List α) (a : α) (todo : List α) :
    removeFrom same p (fuel + 1) done.length (done ++ a :: todo) =
      removeFrom same p fuel (done.length + 1)
        (if p a then (done ++ a :: todo).eraseP (same · a) else done ++ a :: todo) := by
  rw [removeFrom, List.getElem?_append_right (Nat.le_refl _), Nat.sub_self]
  rfl

/-- What the loop leaves of `l`, if it skips `skipped`. -/
structure Leaves (p : α → Bool) (key : α → κ) (l skipped out : List α) : Prop where
  kept : (out.filter fun x => !p x) = l.filter fun x => !p x
  left : ((out.filter p).map key).Perm (skipped.map key)

/-- The loop, from the element behind `done` on. -/
theorem leaves_removeFrom (hsame : ∀ x, same x x = true)
    (hkey : ∀ x y, same x y = true → key x = key y) (hp : ∀ x y, key x = key y → p x = p y)
    (todo : List α) {fuel : ℕ} (hfuel : todo.length ≤ fuel) (done : List α) :
    Leaves p key (done ++ todo) (done.filter p ++ skippedBy p todo)
      (removeFrom same p fuel done.length (done ++ todo)) := by
  fun_induction skippedBy p todo generalizing fuel done with
  | case1 =>
    rw [List.append_nil, List.append_nil, removeFrom_of_length_le (Nat.le_refl _)]
    exact ⟨rfl, List.Perm.refl _⟩
  | case2 a =>
    obtain ⟨fuel, rfl⟩ := Nat.exists_eq_add_of_le' hfuel
    rw [List.append_nil, List.length_singleton, removeFrom_append_cons]
    by_cases ha : p a = true
    · obtain ⟨done', herase, hlength, hkept, hperm⟩ :=
        eraseP_append_cons hsame hkey hp ha done []
      rw [if_pos ha, herase, List.append_nil, ← hlength,
        removeFrom_of_length_le (Nat.le_succ _)]
      exact ⟨by simp [hkept, ha], hperm⟩
    · rw [if_neg ha, removeFrom_of_length_le (by simp)]
      exact ⟨rfl, by simp [ha]⟩
  | case3 a b l ha ih =>
    obtain ⟨fuel, rfl⟩ := Nat.exists_eq_add_of_le' (Nat.lt_of_lt_of_le (Nat.succ_pos _) hfuel)
    obtain ⟨done', herase, hlength, hkept, hperm⟩ :=
      eraseP_append_cons hsame hkey hp ha done (b :: l)
    -- the list moves up, and the iteration goes on behind `b`
    have hstep : removeFrom same p (fuel + 1) done.length (done ++ a :: b :: l) =
        removeFrom same p fuel (done' ++ [b]).length (done' ++ [b] ++ l) := by
      rw [removeFrom_append_cons, if_pos ha, herase, ← List.append_cons, List.length_append,
        hlength, List.length_singleton]
    have hlength : l.length ≤ fuel := by
      rw [List.length_cons, List.length_cons] at hfuel
      omega
    have hrest := ih hlength (done' ++ [b])
    rw [hstep]
    refine ⟨?_, hrest.left.trans ?_⟩
    · rw [hrest.kept]
      simp [hkept, ha]
    · simp only [List.filter_append, List.map_append, List.append_assoc]
      exact hperm.append_right _
  | case4 a b l ha ih =>
    obtain ⟨fuel, rfl⟩ := Nat.exists_eq_add_of_le' (Nat.lt_of_lt_of_le (Nat.succ_pos _) hfuel)
    have hrest := ih (Nat.le_of_succ_le_succ hfuel) (done ++ [a])
    have hstep : removeFrom same p (fuel + 1) done.length (done ++ a :: b :: l) =
        removeFrom same p fuel (done ++ [a]).length (done ++ [a] ++ b :: l) := by
      rw [removeFrom_append_cons, if_neg ha, ← List.append_cons, List.length_append,
        List.length_singleton]
    rw [hstep]
    refine ⟨by rw [hrest.kept, ← List.append_cons], hrest.left.trans ?_⟩
    simp [ha]

/-- **The loop keeps the elements without the property, and as many of the others as it skips.** -/
theorem leaves_removeWhile (hsame : ∀ x, same x x = true)
    (hkey : ∀ x y, same x y = true → key x = key y) (hp : ∀ x y, key x = key y → p x = p y)
    (l : List α) : Leaves p key l (skippedBy p l) (removeWhile same p l) :=
  leaves_removeFrom hsame hkey hp l (Nat.le_refl _) []

/-! ### Several loops -/

/-- One loop after the other. -/
def removeAll (same : α → α → Bool) (ps : List (α → Bool)) (l : List α) : List α :=
  ps.foldl (fun l p => removeWhile same p l) l

/-- Whatever a loop skips, a later one removes or skips. -/
def NothingLeft (same : α → α → Bool) : List (α → Bool) → List α → Prop
  | [], _ => True
  | p :: ps, l =>
    (∀ x ∈ skippedBy p l, ∃ q ∈ ps, q x = true) ∧ NothingLeft same ps (removeWhile same p l)

variable {ps : List (α → Bool)} {l : List α}

/-- The elements without any of the properties stay. -/
theorem filter_removeAll (hsame : ∀ x, same x x = true)
    (hkey : ∀ x y, same x y = true → key x = key y)
    (hp : ∀ p ∈ ps, ∀ x y, key x = key y → p x = p y) :
    ((removeAll same ps l).filter fun x => ps.all fun p => !p x) =
      l.filter fun x => ps.all fun p => !p x := by
  induction ps generalizing l with
  | nil => rfl
  | cons p ps ih =>
    have hps : ∀ l' : List α, (l'.filter fun x => (p :: ps).all fun p => !p x) =
        (l'.filter fun x => ps.all fun p => !p x).filter fun x => !p x := by
      intro l'
      rw [List.filter_filter]
      rfl
    rw [hps, hps, removeAll, List.foldl_cons, ← removeAll,
      ih fun q hq => hp q (List.mem_cons_of_mem p hq), List.filter_comm,
      (leaves_removeWhile hsame hkey (hp p List.mem_cons_self) l).kept, List.filter_comm]

/-- **The loops leave none of the elements that they should remove exactly if all that they skip is
removed or skipped by a later one.** -/
theorem forall_removeAll_iff (hsame : ∀ x, same x x = true)
    (hkey : ∀ x y, same x y = true → key x = key y)
    (hp : ∀ p ∈ ps, ∀ x y, key x = key y → p x = p y) :
    (∀ x ∈ removeAll same ps l, ∀ p ∈ ps, p x = false) ↔ NothingLeft same ps l := by
  induction ps generalizing l with
  | nil => exact iff_of_true (fun _ _ => nofun) trivial
  | cons p ps ih =>
    have hps : ∀ q ∈ ps, ∀ x y, key x = key y → q x = q y :=
      fun q hq => hp q (List.mem_cons_of_mem p hq)
    have hpk := hp p List.mem_cons_self
    have hfilter := filter_removeAll (l := removeWhile same p l) hsame hkey hps
    have hleft := (leaves_removeWhile hsame hkey hpk l).left
    rw [removeAll, List.foldl_cons, ← removeAll, NothingLeft, ← ih hps]
    constructor
    · intro hall
      have hrest : ∀ x ∈ removeAll same ps (removeWhile same p l), ∀ q ∈ ps, q x = false :=
        fun x hx q hq => hall x hx q (List.mem_cons_of_mem p hq)
      refine ⟨fun x hx => ?_, hrest⟩
      by_contra hnone
      -- an element with the key of `x` is left by the first loop, and by all the others
      obtain ⟨y, hy, hyx⟩ := List.mem_map.1 (hleft.symm.subset (List.mem_map_of_mem hx))
      obtain ⟨hy, hpy⟩ := List.mem_filter.1 hy
      have hyps : (ps.all fun q => !q y) = true := by
        refine List.all_eq_true.2 fun q hq => ?_
        rw [hps q hq y x hyx, Bool.not_eq_true']
        exact Bool.eq_false_iff.2 fun hqx => hnone ⟨q, hq, hqx⟩
      have hyout := (List.mem_filter.1 (hfilter ▸ List.mem_filter.2 ⟨hy, hyps⟩)).1
      rw [hall y hyout p List.mem_cons_self] at hpy
      cases hpy
    · rintro ⟨hskip, hrest⟩ x hx q hq
      rcases List.mem_cons.1 hq with rfl | hq
      · by_contra hqx
        rw [Bool.not_eq_false] at hqx
        have hxps : (ps.all fun q => !q x) = true :=
          List.all_eq_true.2 fun q' hq' => by rw [hrest x hx q' hq']; rfl
        -- what no other loop removes was left by the first one
        have hxl := (List.mem_filter.1 (hfilter ▸ List.mem_filter.2 ⟨hx, hxps⟩)).1
        obtain ⟨y, hy, hyx⟩ := List.mem_map.1
          (hleft.subset (List.mem_map_of_mem (List.mem_filter.2 ⟨hxl, hqx⟩)))
        obtain ⟨q', hq', hq'y⟩ := hskip y hy
        rw [hps q' hq' y x hyx, hrest x hx q' hq'] at hq'y
        cases hq'y
      · exact hrest x hx q hq

/-- The loops remove exactly the elements that have one of the properties. -/
theorem removeAll_eq_filter_iff (hsame : ∀ x, same x x = true)
    (hkey : ∀ x y, same x y = true → key x = key y)
    (hp : ∀ p ∈ ps, ∀ x y, key x = key y → p x = p y) :
    removeAll same ps l = (l.filter fun x => ps.all fun p => !p x) ↔ NothingLeft same ps l := by
  rw [← forall_removeAll_iff hsame hkey hp, ← filter_removeAll hsame hkey hp, eq_comm,
    List.filter_eq_self]
  simp

end Series

end Svoe
