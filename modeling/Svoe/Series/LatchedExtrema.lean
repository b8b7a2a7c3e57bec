import Mathlib.Data.List.Basic

/-!
# Latched extrema

A window has the last three values of a sequence.  When the one in the middle is an extremum, it is
latched.  What was latched is forgotten from time to time, but the window is not.

* `window_append` : the window after one more value.
* `ExtremumAt`, `LatestExtremum` : the same in terms of the whole sequence.
* `latestExtremum_append_iff` : the latest extremum after one more value.
* `latched_iff` : it is the one that is latched.
-/

namespace Svoe

namespace Series

variable {α : Type*}

/-- The last three values. -/
def window (xs : List α) : List α := xs.drop (xs.length - 3)

/-- `m` is found to be an extremum with the value at the index `d`: it is the value before that one,
and related to both its neighbours (by `<` if it is a minimum, by `>` if it is a maximum). -/
def ExtremumAt (r : α → α → Prop) (xs : List α) (d : ℕ) (m : α) : Prop :=
  ∃ k x y, d = k + 2 ∧ xs[k]? = some x ∧ xs[k + 1]? = some m ∧ xs[k + 2]? = some y ∧
    r m x ∧ r m y

/-- The latest extremum of the sequence is `m`, and found at an index from `since` on. -/
def LatestExtremum (r : α → α → Prop) (xs : List α) (since : ℕ) (m : α) : Prop :=
  ∃ d, since ≤ d ∧ ExtremumAt r xs d m ∧ ∀ d' m', d < d' → ¬ ExtremumAt r xs d' m'

variable {r : α → α → Prop} {xs : List α} {x m m' : α} {d since : ℕ}

/-! ### The window -/

theorem length_window_le (xs : List α) : (window xs).length ≤ 3 := by
  rw [window, List.length_drop]
  omega

/-- **The window after one more value**: the first one is dropped if there are too many. -/
theorem window_append (xs : List α) (x : α) : window (xs ++ [x]) =
    if 3 < (window xs ++ [x]).length then (window xs ++ [x]).drop 1 else window xs ++ [x] := by
  have hlength : (window xs ++ [x]).length = min xs.length 3 + 1 := by
    rw [List.length_append, window, List.length_drop, List.length_singleton]
    omega
  rw [hlength]
  unfold window
  split_ifs with h
  · have hle : xs.length - 3 ≤ xs.length := Nat.sub_le _ _
    rw [← List.drop_append_of_le_length hle, List.drop_drop, List.length_append,
      List.length_singleton]
    congr 1
    omega
  · have hzero : (xs ++ [x]).length - 3 = 0 ∧ xs.length - 3 = 0 := by
      rw [List.length_append, List.length_singleton]
      omega
    rw [hzero.1, hzero.2]
    rfl

theorem window_eq_iff {a b c : α} : window xs = [a, b, c] ↔ ∃ ys, xs = ys ++ [a, b, c] := by
  constructor
  · intro h
    exact ⟨xs.take (xs.length - 3), by rw [← h, window, List.take_append_drop]⟩
  · rintro ⟨ys, rfl⟩
    rw [window]
    exact List.drop_left' (by simp)

/-! ### Extrema -/

theorem ExtremumAt.lt_length (h : ExtremumAt r xs d m) : d < xs.length := by
  obtain ⟨k, x, y, rfl, -, -, hy, -⟩ := h
  exact (List.getElem?_eq_some_iff.1 hy).1

/-- What was found before one more value came. -/
theorem extremumAt_append_of_lt (hd : d < xs.length) :
    ExtremumAt r (xs ++ [x]) d m ↔ ExtremumAt r xs d m := by
  refine exists_congr fun k => exists₂_congr fun a b => and_congr_right fun hk => ?_
  rw [List.getElem?_append_left (by omega), List.getElem?_append_left (by omega),
    List.getElem?_append_left (by omega)]

/-- **What the latest value finds** is in the middle of the window. -/
theorem extremumAt_length_iff : ExtremumAt r (xs ++ [x]) xs.length m ↔
    ∃ a b, window (xs ++ [x]) = [a, m, b] ∧ r m a ∧ r m b := by
  simp only [window_eq_iff]
  constructor
  · rintro ⟨k, a, b, hk, ha, hm, hb, hra, hrb⟩
    refine ⟨a, b, ⟨xs.take k, ?_⟩, hra, hrb⟩
    have hlength : (xs ++ [x]).length = k + 3 := by
      rw [List.length_append, List.length_singleton, hk]
    rw [List.getElem?_eq_some_iff] at ha hm hb
    obtain ⟨hka, rfl⟩ := ha
    obtain ⟨hkm, rfl⟩ := hm
    obtain ⟨hkb, rfl⟩ := hb
    have htake : xs.take k = (xs ++ [x]).take k := by
      rw [List.take_append_of_le_length (by omega)]
    rw [htake]
    conv_lhs => rw [← List.take_append_drop k (xs ++ [x])]
    rw [List.drop_eq_getElem_cons hka, List.drop_eq_getElem_cons hkm,
      List.drop_eq_getElem_cons hkb, List.drop_eq_nil_of_le (by omega)]
  · rintro ⟨a, b, ⟨ys, hys⟩, hra, hrb⟩
    have hlength := congrArg List.length hys
    simp only [List.length_append, List.length_cons, List.length_nil] at hlength
    refine ⟨ys.length, a, b, by omega, ?_, ?_, ?_, hra, hrb⟩
    · rw [hys, List.getElem?_append_right (Nat.le_refl _), Nat.sub_self]
      rfl
    · rw [hys, List.getElem?_append_right (by omega), Nat.add_sub_cancel_left]
      rfl
    · rw [hys, List.getElem?_append_right (by omega), Nat.add_sub_cancel_left]
      rfl

/-- A test for extrema in the middle of a window finds those of the latest value. -/
theorem middle_window_iff {found : List α → Bool} (hshort : ∀ w, w.length < 3 → found w = false)
    (hthree : ∀ a b c, found [a, b, c] = true ↔ r b a ∧ r b c) (xs : List α) (x m : α) :
    (if found (window (xs ++ [x])) then (window (xs ++ [x]))[1]? else none) = some m ↔
      ExtremumAt r (xs ++ [x]) xs.length m := by
  rw [extremumAt_length_iff]
  have hlength := length_window_le (xs ++ [x])
  generalize window (xs ++ [x]) = w at hlength ⊢
  by_cases hw : w.length < 3
  · rw [hshort w hw]
    refine iff_of_false nofun ?_
    rintro ⟨a, b, rfl, -⟩
    exact absurd hw (Nat.lt_irrefl 3)
  · obtain ⟨a, b, c, rfl⟩ := List.length_eq_three.1 (Nat.le_antisymm hlength (Nat.not_lt.1 hw))
    rw [ite_eq_iff, hthree]
    constructor
    · rintro (⟨⟨ha, hc⟩, hb⟩ | ⟨-, hnone⟩)
      · obtain rfl := Option.some.inj hb
        exact ⟨a, c, rfl, ha, hc⟩
      · cases hnone
    · rintro ⟨a', c', hw, ha, hc⟩
      cases hw
      exact .inl ⟨⟨ha, hc⟩, rfl⟩

/-- **The latest extremum after one more value**: the one that it finds, or else the one before. -/
theorem latestExtremum_append_iff (hsince : since ≤ xs.length) :
    LatestExtremum r (xs ++ [x]) since m ↔ ExtremumAt r (xs ++ [x]) xs.length m ∨
      (∀ m', ¬ ExtremumAt r (xs ++ [x]) xs.length m') ∧ LatestExtremum r xs since m := by
  constructor
  · rintro ⟨d, hd, hat, hlatest⟩
    have hlt := hat.lt_length
    rw [List.length_append, List.length_singleton] at hlt
    rcases Nat.lt_succ_iff_lt_or_eq.1 hlt with hlt | rfl
    · refine .inr ⟨fun m' => hlatest _ m' hlt, d, hd, (extremumAt_append_of_lt hlt).1 hat, ?_⟩
      intro d' m' hd' hat'
      exact hlatest d' m' hd' ((extremumAt_append_of_lt hat'.lt_length).2 hat')
    · exact .inl hat
  · rintro (hat | ⟨hnone, d, hd, hat, hlatest⟩)
    · refine ⟨xs.length, hsince, hat, fun d' m' hd' hat' => ?_⟩
      have hlt := hat'.lt_length
      rw [List.length_append, List.length_singleton] at hlt
      omega
    · refine ⟨d, hd, (extremumAt_append_of_lt hat.lt_length).2 hat, fun d' m' hd' hat' => ?_⟩
      have hlt := hat'.lt_length
      rw [List.length_append, List.length_singleton] at hlt
      rcases Nat.lt_succ_iff_lt_or_eq.1 hlt with hlt | rfl
      · exact hlatest d' m' hd' ((extremumAt_append_of_lt hlt).1 hat')
      · exact hnone m' hat'

/-- **The latched value** after one more value is the latest extremum. -/
theorem latched_iff {found old : Option α} (hsince : since ≤ xs.length)
    (hfound : ∀ m, found = some m ↔ ExtremumAt r (xs ++ [x]) xs.length m)
    (hold : ∀ m, old = some m ↔ LatestExtremum r xs since m) (m : α) :
    found.or old = some m ↔ LatestExtremum r (xs ++ [x]) since m := by
  rw [latestExtremum_append_iff hsince, Option.or_eq_some_iff, hfound, hold]
  refine or_congr Iff.rfl (and_congr ?_ Iff.rfl)
  rw [Option.eq_none_iff_forall_ne_some]
  exact forall_congr' fun m' => not_congr (hfound m')

/-- Nothing has been found since the end. -/
theorem not_latestExtremum_length : ¬ LatestExtremum r xs xs.length m := by
  rintro ⟨d, hd, hat, -⟩
  exact absurd hat.lt_length (Nat.not_lt.2 hd)

end Series

end Svoe
