import Mathlib.Data.List.Infix

/-!
# Filling buckets one after the other

Items go into the last bucket until it is full, then into a new one.

* `Filled.new`, `Filled.push` : one more item.
* `Filled.length_le` : a bucket is no longer than a limit that fills it.
-/

namespace Svoe

namespace Series

variable {α : Type*} {Full : List α → Prop} {items : List α} {buckets : List (List α)}
  {bucket : List α}

/-- The items in buckets, each of which was closed as soon as it was full. -/
structure Filled (Full : List α → Prop) (items : List α) (buckets : List (List α)) : Prop where
  flatten_eq : buckets.flatten = items
  ne_nil : ∀ b ∈ buckets, b ≠ []
  /-- Only the last bucket may have room. -/
  full : ∀ b ∈ buckets.dropLast, Full b
  /-- No bucket was full before its last item. -/
  not_full : ∀ b ∈ buckets, ∀ init, init <+: b.dropLast → init ≠ [] → ¬ Full init

theorem Filled.nil (Full : List α → Prop) : Filled Full [] [] where
  flatten_eq := rfl
  ne_nil _ h := absurd h List.not_mem_nil
  full _ h := absurd h List.not_mem_nil
  not_full _ h := absurd h List.not_mem_nil

/-- If all buckets are full, an item goes into a new one. -/
theorem Filled.new (h : Filled Full items buckets) (hfull : ∀ b ∈ buckets, Full b) (a : α) :
    Filled Full (items ++ [a]) (buckets ++ [[a]]) where
  flatten_eq := by rw [List.flatten_append, h.flatten_eq, List.flatten_singleton]
  ne_nil b hb := by
    rcases List.mem_append.1 hb with hb | hb
    · exact h.ne_nil b hb
    · rw [List.mem_singleton.1 hb]
      exact List.cons_ne_nil a []
  full := by rwa [List.dropLast_concat]
  not_full b hb := by
    rcases List.mem_append.1 hb with hb | hb
    · exact h.not_full b hb
    · rw [List.mem_singleton.1 hb]
      exact fun init hinit hne => absurd (List.prefix_nil.1 hinit) hne

theorem eq_or_prefix_dropLast {init l : List α} (h : init <+: l) :
    init = l ∨ init <+: l.dropLast := by
  cases l using List.reverseRecOn with
  | nil => exact .inr h
  | append_singleton l a =>
    rw [List.dropLast_concat]
    exact List.prefix_concat_iff.1 h

/-- If the last bucket is not full, an item goes into it. -/
theorem Filled.push (h : Filled Full items (buckets ++ [bucket])) (hbucket : ¬ Full bucket)
    (a : α) : Filled Full (items ++ [a]) (buckets ++ [bucket ++ [a]]) where
  flatten_eq := by
    rw [← h.flatten_eq, List.flatten_append, List.flatten_append, List.flatten_singleton,
      List.flatten_singleton, List.append_assoc]
  ne_nil b hb := by
    rcases List.mem_append.1 hb with hb | hb
    · exact h.ne_nil b (List.mem_append_left _ hb)
    · rw [List.mem_singleton.1 hb]
      exact List.concat_ne_nil a bucket
  full := by
    have hfull := h.full
    rwa [List.dropLast_concat] at hfull ⊢
  not_full b hb := by
    rcases List.mem_append.1 hb with hb | hb
    · exact h.not_full b (List.mem_append_left _ hb)
    · rw [List.mem_singleton.1 hb, List.dropLast_concat]
      intro init hinit hne
      -- the longest such part is the bucket as it was
      have hlast := h.not_full bucket (List.mem_append_right _ (List.mem_singleton_self bucket))
      obtain rfl | hproper := eq_or_prefix_dropLast hinit
      · exact hbucket
      · exact hlast init hproper hne

theorem Filled.length_le (h : Filled Full items buckets) {n : ℕ} (hn : n ≠ 0)
    (hfull : ∀ b, b.length = n → Full b) {b : List α} (hb : b ∈ buckets) : b.length ≤ n := by
  by_contra hlt
  have hlength : (b.dropLast.take n).length = n := by
    rw [List.length_take, List.length_dropLast]
    omega
  refine h.not_full b hb _ (List.take_prefix n _) ?_ (hfull _ hlength)
  rw [← List.length_pos_iff, hlength]
  exact Nat.pos_of_ne_zero hn

end Series

end Svoe
