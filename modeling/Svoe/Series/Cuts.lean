import Mathlib.Data.List.Basic
import Svoe.Series.AsOf

/-!
# Cutting a series at points

`segments cuts` are the pairs of consecutive points.  Cutting a sorted series at `cuts` into closed
segments keeps what is strictly between two points once, and repeats what is at an inner point: it
ends one segment and starts the next (`flatten_segments`).
-/

namespace Svoe

namespace Series

variable {α K : Type*}

/-- The pairs of consecutive points. -/
def segments (cuts : List K) : List (K × K) := cuts.zip cuts.tail

@[simp] theorem segments_cons_cons (a b : K) (cuts : List K) :
    segments (a :: b :: cuts) = (a, b) :: segments (b :: cuts) := rfl

@[simp] theorem segments_singleton (a : K) : segments [a] = [] := rfl

theorem segments_concat (cuts : List K) (a b : K) :
    segments (cuts ++ [a] ++ [b]) = segments (cuts ++ [a]) ++ [(a, b)] := by
  induction cuts with
  | nil => rfl
  | cons c cuts ih =>
    cases cuts with
    | nil => rfl
    | cons d cuts => simpa using ih

theorem mem_of_mem_segments {cuts : List K} {p : K × K} (h : p ∈ segments cuts) :
    p.1 ∈ cuts ∧ p.2 ∈ cuts.tail := List.of_mem_zip h

variable [LinearOrder K] {ts : α → K} {l : List α}

/-- The segments of increasing points touch at most, and start at different points if no two points
but the last are equal. -/
theorem pairwise_segments {cuts : List K} (hle : cuts.Pairwise (· ≤ ·))
    (hlt : cuts.dropLast.Pairwise (· < ·)) :
    (segments cuts).Pairwise fun p q => p.2 ≤ q.1 ∧ p.1 < q.1 := by
  induction cuts with
  | nil => exact .nil
  | cons x cuts ih =>
    match cuts with
    | [] => exact .nil
    | [y] => exact List.pairwise_singleton _ _
    | y :: z :: cuts =>
      obtain ⟨-, hle⟩ := List.pairwise_cons.1 hle
      obtain ⟨hx, hlt⟩ := List.pairwise_cons.1 hlt
      rw [segments_cons_cons]
      refine List.pairwise_cons.2 ⟨fun p hp => ?_, ih hle hlt⟩
      have hy : y ≤ p.1 := by
        rcases List.mem_cons.1 (mem_of_mem_segments hp).1 with heq | hmem
        · exact heq.ge
        · exact (List.pairwise_cons.1 hle).1 _ hmem
      exact ⟨hy, (hx y List.mem_cons_self).trans_le hy⟩

theorem le_of_mem_segments {cuts : List K} (hle : cuts.Pairwise (· ≤ ·)) {p : K × K}
    (h : p ∈ segments cuts) : p.1 ≤ p.2 := by
  induction cuts with
  | nil => cases h
  | cons x cuts ih =>
    obtain ⟨hx, hle⟩ := List.pairwise_cons.1 hle
    match cuts with
    | [] => cases h
    | y :: cuts =>
      rcases List.mem_cons.1 h with rfl | h
      · exact hx y List.mem_cons_self
      · exact ih hle h

section Repeat

variable {P : α → Prop} [DecidablePred P]

theorem flatMap_repeat_of_forall_not {l : List α} (h : ∀ a ∈ l, ¬ P a) :
    l.flatMap (fun a => if P a then [a, a] else [a]) = l := by
  induction l with
  | nil => rfl
  | cons a l ih =>
    rw [List.flatMap_cons, if_neg (h a List.mem_cons_self),
      ih fun b hb => h b (List.mem_cons_of_mem a hb)]
    rfl

theorem flatMap_repeat_of_length_le_one {l : List α} (h : ∀ a ∈ l, P a) (hlen : l.length ≤ 1) :
    l.flatMap (fun a => if P a then [a, a] else [a]) = l ++ l := by
  match l, hlen with
  | [], _ => rfl
  | [a], _ => rw [List.flatMap_singleton, if_pos (h a List.mem_cons_self)]; rfl

end Repeat

/-- Cutting a segment at a point with at most one element: that element is repeated.  What the
second part repeats is behind the point. -/
theorem segment_append_segment (hl : l.Pairwise fun a b => ts a ≤ ts b) {x y z : K} (hxy : x ≤ y)
    (hyz : y ≤ z) (honce : (l.filter fun a => ts a = y).length ≤ 1) {inner : List K}
    (hinner : ∀ c ∈ inner, y < c) :
    l.filter (fun a => x ≤ ts a ∧ ts a ≤ y) ++ (l.filter fun a => y ≤ ts a ∧ ts a ≤ z).flatMap
        (fun a => if ts a ∈ inner then [a, a] else [a]) =
      (l.filter fun a => x ≤ ts a ∧ ts a ≤ z).flatMap fun a =>
        if ts a ∈ y :: inner then [a, a] else [a] := by
  set before := l.filter fun a => x ≤ ts a ∧ ts a < y with hbefore
  set here := l.filter fun a => ts a = y with hhere
  set behind := l.filter fun a => y < ts a ∧ ts a ≤ z with hbehind
  have hleft : l.filter (fun a => x ≤ ts a ∧ ts a ≤ y) = before ++ here := by
    have hsep : ∀ a ∈ l, ∀ b ∈ l, x ≤ ts a ∧ ts a < y → ts b = y → ts a < ts b :=
      fun a _ b _ ha hb => hb ▸ ha.2
    rw [filter_append_filter hl hsep]
    exact List.filter_congr fun a _ => decide_eq_decide.2 (by grind)
  have hright : l.filter (fun a => y ≤ ts a ∧ ts a ≤ z) = here ++ behind := by
    have hsep : ∀ a ∈ l, ∀ b ∈ l, ts a = y → y < ts b ∧ ts b ≤ z → ts a < ts b :=
      fun a _ b _ ha hb => ha ▸ hb.1
    rw [filter_append_filter hl hsep]
    exact List.filter_congr fun a _ => decide_eq_decide.2 (by grind)
  have hall : l.filter (fun a => x ≤ ts a ∧ ts a ≤ z) = before ++ (here ++ behind) := by
    have hsep : ∀ a ∈ l, ∀ b ∈ l, x ≤ ts a ∧ ts a < y → y ≤ ts b ∧ ts b ≤ z → ts a < ts b :=
      fun a _ b _ ha hb => ha.2.trans_le hb.1
    rw [← hright, filter_append_filter hl hsep]
    refine List.filter_congr fun a _ => decide_eq_decide.2 ⟨fun h => ?_, ?_⟩
    · rcases lt_or_ge (ts a) y with hlt | hge
      · exact .inl ⟨h.1, hlt⟩
      · exact .inr ⟨hge, h.2⟩
    · rintro (⟨hx, hlt⟩ | ⟨hge, hz⟩)
      · exact ⟨hx, hlt.le.trans hyz⟩
      · exact ⟨hxy.trans hge, hz⟩
  have hkeep : before.flatMap (fun a => if ts a ∈ y :: inner then [a, a] else [a]) = before := by
    refine flatMap_repeat_of_forall_not fun a ha hmem => ?_
    have hlt : ts a < y := (of_decide_eq_true (List.mem_filter.1 ha).2).2
    rcases List.mem_cons.1 hmem with heq | hmem
    · exact hlt.ne heq
    · exact lt_asymm hlt (hinner _ hmem)
  have hrepeat : here.flatMap (fun a => if ts a ∈ y :: inner then [a, a] else [a]) =
      here ++ here := by
    refine flatMap_repeat_of_length_le_one (fun a ha => ?_) honce
    exact List.mem_cons.2 (.inl (of_decide_eq_true (List.mem_filter.1 ha).2))
  have hnext : here.flatMap (fun a => if ts a ∈ inner then [a, a] else [a]) = here := by
    refine flatMap_repeat_of_forall_not fun a ha hmem => ?_
    exact (hinner _ hmem).ne (of_decide_eq_true (List.mem_filter.1 ha).2).symm
  have hsame : behind.flatMap (fun a => if ts a ∈ y :: inner then [a, a] else [a]) =
      behind.flatMap fun a => if ts a ∈ inner then [a, a] else [a] := by
    refine List.flatMap_congr fun a ha => if_congr ?_ rfl rfl
    have hlt : y < ts a := (of_decide_eq_true (List.mem_filter.1 ha).2).1
    rw [List.mem_cons, or_iff_right hlt.ne']
  rw [hleft, hright, hall]
  simp only [List.flatMap_append, hkeep, hrepeat, hnext, hsame, List.append_assoc]

/-- **The segments of a sorted series, one after the other**, are the series with every element at
an inner point repeated, if no two elements are at the same inner point. -/
theorem flatten_segments (hl : l.Pairwise fun a b => ts a ≤ ts b) {cuts : List K}
    (hle : cuts.Pairwise (· ≤ ·)) (hlt : cuts.dropLast.Pairwise (· < ·))
    (honce : ∀ c ∈ cuts.tail.dropLast, (l.filter fun a => ts a = c).length ≤ 1) {first last : K}
    (hfirst : cuts.head? = some first) (hlast : cuts.tail.getLast? = some last) :
    ((segments cuts).map fun p => l.filter fun a => p.1 ≤ ts a ∧ ts a ≤ p.2).flatten =
      (l.filter fun a => first ≤ ts a ∧ ts a ≤ last).flatMap fun a =>
        if ts a ∈ cuts.tail.dropLast then [a, a] else [a] := by
  induction cuts generalizing first with
  | nil => cases hfirst
  | cons x cuts ih =>
    obtain rfl := Option.some.inj hfirst
    match cuts with
    | [] => cases hlast
    | [y] =>
      obtain rfl := Option.some.inj hlast
      rw [segments_cons_cons, segments_singleton, List.map_singleton, List.flatten_singleton]
      exact (List.flatMap_singleton' _).symm
    | y :: z :: cuts =>
      obtain ⟨hx, hle⟩ := List.pairwise_cons.1 hle
      obtain ⟨-, hlt⟩ := List.pairwise_cons.1 hlt
      rw [segments_cons_cons, List.map_cons, List.flatten_cons,
        ih hle hlt (fun c hc => honce c (List.mem_cons_of_mem y hc)) rfl hlast]
      exact segment_append_segment hl (hx y List.mem_cons_self)
        ((List.pairwise_cons.1 hle).1 last (List.mem_of_getLast? hlast))
        (honce y List.mem_cons_self) (List.pairwise_cons.1 hlt).1

end Series

end Svoe
