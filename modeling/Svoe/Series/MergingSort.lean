import Mathlib.Data.List.Chain
import Mathlib.Data.List.Sort

/-!
# Sorts by merging

A sort that is stable for a strict weak order can still be given any comparison `lt`, and what it
returns then depends on the comparisons it happens to make.  This file is about all the sorts that
merge sorted parts and put an element before another only on the evidence of a comparison that they
have made: of the two, or of one of them and a neighbour of the other in its part.  Natural merge
sorts with galloping and binary insertion are of this kind.

* `Merges` : what a merge of two parts can return.
* `MergingSort` : what a sort can return.
* `MergingSort.pairwise` : if `lt` decides a transitive relation on the pairs of the list, the
  result is in the order of the relation.
* `MergingSort.pairwise_of_pairwise` : what the comparisons say of the list if the result is in
  order.
* `binarySort` : the sort of a short list, by runs and binary insertion.
-/

namespace Svoe

namespace Series

variable {α : Type*} {lt : α → α → Bool} {a b pivot : α} {xs A B l l' m m' out : List α}

/-! ### Merges -/

/-- The merges `out` of `A` and `B`.  The head of `A` is taken if the head of `B` is not less than
one of the elements of `A`, the head of `B` if one of the elements of `B` is less than the head of
`A`. -/
inductive Merges (lt : α → α → Bool) : List α → List α → List α → Prop
  | nil : Merges lt [] [] []
  | left {a : α} {A B out : List α} (h : ∀ b ∈ B.head?, ∃ a' ∈ a :: A, lt b a' = false)
      (hm : Merges lt A B out) : Merges lt (a :: A) B (a :: out)
  | right {b : α} {A B out : List α} (h : ∀ a ∈ A.head?, ∃ b' ∈ b :: B, lt b' a = true)
      (hm : Merges lt A B out) : Merges lt A (b :: B) (b :: out)

namespace Merges

theorem perm (h : Merges lt A B out) : out.Perm (A ++ B) := by
  induction h with
  | nil => exact List.Perm.nil
  | left _ _ ih => exact ih.cons _
  | right _ _ ih => exact (ih.cons _).trans List.perm_middle.symm

theorem sublist_left (h : Merges lt A B out) : A.Sublist out := by
  induction h with
  | nil => exact List.Sublist.slnil
  | left _ _ ih => exact ih.cons_cons _
  | right _ _ ih => exact ih.cons _

theorem sublist_right (h : Merges lt A B out) : B.Sublist out := by
  induction h with
  | nil => exact List.Sublist.slnil
  | left _ _ ih => exact ih.cons _
  | right _ _ ih => exact ih.cons_cons _

theorem nil_left : ∀ B : List α, Merges lt [] B B
  | [] => .nil
  | _ :: B => .right nofun (nil_left B)

theorem nil_right : ∀ A : List α, Merges lt A [] A
  | [] => .nil
  | _ :: A => .left nofun (nil_right A)

/-- An element in front of the other part. -/
theorem singleton_left (h : ∀ b ∈ B.head?, lt b a = false) : Merges lt [a] B (a :: B) :=
  .left (fun b hb => ⟨a, List.mem_cons_self, h b hb⟩) (nil_left B)

/-- An element behind the other part. -/
theorem singleton_append (h : ∀ b ∈ B.getLast?, lt b a = true) : Merges lt [a] B (B ++ [a]) := by
  induction B with
  | nil => exact nil_right [a]
  | cons b B ih =>
    refine .right ?_ (ih ?_)
    · rintro _ ⟨⟩
      have hne : b :: B ≠ [] := List.cons_ne_nil b B
      exact ⟨_, List.getLast_mem hne, h _ (List.getLast?_eq_some_getLast hne)⟩
    · intro c hc
      refine h c ?_
      rw [List.getLast?_cons]
      rw [Option.mem_def] at hc ⊢
      rw [hc]
      rfl

/-- An element inserted into the other part. -/
theorem insert {k : ℕ} (hk : k ≤ xs.length)
    (hl : ∀ p, p + 1 = k → ∀ a ∈ xs[p]?, lt pivot a = false)
    (hr : ∀ a ∈ xs[k]?, lt pivot a = true) :
    Merges lt xs [pivot] (xs.take k ++ pivot :: xs.drop k) := by
  induction k generalizing xs with
  | zero =>
    refine .right (fun a ha => ⟨pivot, List.mem_cons_self, hr a ?_⟩) (nil_right xs)
    rwa [← List.head?_eq_getElem?]
  | succ k ih =>
    cases xs with
    | nil => exact absurd hk (by simp)
    | cons a xs =>
      have hk' : k < (a :: xs).length := hk
      refine .left ?_ (ih (Nat.le_of_succ_le_succ hk) ?_ hr)
      · rintro _ ⟨⟩
        exact ⟨_, List.getElem_mem hk', hl k rfl _ (List.getElem?_eq_getElem hk')⟩
      · rintro p rfl b hb
        exact hl (p + 1) rfl b hb

/-- If `lt` decides a transitive relation between the two parts, a merge keeps its order. -/
theorem pairwise {R : α → α → Prop} (htrans : ∀ {x y z}, R x y → R y z → R x z)
    (h : Merges lt A B out) (hA : A.Pairwise R) (hB : B.Pairwise R)
    (hAB : ∀ a ∈ A, ∀ b ∈ B, (lt b a = false → R a b) ∧ (lt b a = true → R b a)) :
    out.Pairwise R := by
  induction h with
  | nil => exact List.Pairwise.nil
  | @left a A B out h hm ih =>
    obtain ⟨haA, hA⟩ := List.pairwise_cons.1 hA
    refine List.pairwise_cons.2 ⟨?_, ih hA hB fun x hx => hAB x (List.mem_cons_of_mem a hx)⟩
    have haB : ∀ b ∈ B, R a b := by
      cases B with
      | nil => exact nofun
      | cons b B =>
        obtain ⟨a', ha', hlt⟩ := h b rfl
        have ha'b : R a' b := (hAB a' ha' b List.mem_cons_self).1 hlt
        have hab : R a b := by
          rcases List.mem_cons.1 ha' with rfl | ha'
          · exact ha'b
          · exact htrans (haA a' ha') ha'b
        rintro c hc
        rcases List.mem_cons.1 hc with rfl | hc
        · exact hab
        · exact htrans hab ((List.pairwise_cons.1 hB).1 c hc)
    intro x hx
    rcases List.mem_append.1 (hm.perm.subset hx) with hx | hx
    · exact haA x hx
    · exact haB x hx
  | @right b A B out h hm ih =>
    obtain ⟨hbB, hB⟩ := List.pairwise_cons.1 hB
    refine List.pairwise_cons.2
      ⟨?_, ih hA hB fun x hx y hy => hAB x hx y (List.mem_cons_of_mem b hy)⟩
    have hbA : ∀ a ∈ A, R b a := by
      cases A with
      | nil => exact nofun
      | cons a A =>
        obtain ⟨b', hb', hlt⟩ := h a rfl
        have hb'a : R b' a := (hAB a List.mem_cons_self b' hb').2 hlt
        have hba : R b a := by
          rcases List.mem_cons.1 hb' with rfl | hb'
          · exact hb'a
          · exact htrans (hbB b' hb') hb'a
        rintro c hc
        rcases List.mem_cons.1 hc with rfl | hc
        · exact hba
        · exact htrans hba ((List.pairwise_cons.1 hA).1 c hc)
    intro x hx
    rcases List.mem_append.1 (hm.perm.subset hx) with hx | hx
    · exact hbA x hx
    · exact hbB x hx

/-- What was compared if a merge is in order: an element of the right part stands before one of
the left part only if something that is not before it was less than something not after that. -/
theorem of_pairwise {R : α → α → Prop} (h : Merges lt A B out) (hout : out.Pairwise R) :
    ∀ a ∈ A, ∀ b ∈ B,
      R a b ∨ ∃ a' b', (a' = a ∨ R a' a) ∧ (b' = b ∨ R b b') ∧ lt b' a' = true := by
  induction h with
  | nil => exact nofun
  | @left a A B out h hm ih =>
    obtain ⟨ha, hout⟩ := List.pairwise_cons.1 hout
    intro x hx b hb
    rcases List.mem_cons.1 hx with rfl | hx
    · exact Or.inl (ha b (hm.sublist_right.subset hb))
    · exact ih hout x hx b hb
  | @right b A B out h hm ih =>
    obtain ⟨hb, hout'⟩ := List.pairwise_cons.1 hout
    intro a ha y hy
    rcases List.mem_cons.1 hy with rfl | hy
    · cases A with
      | nil => exact absurd ha List.not_mem_nil
      | cons a' A =>
        obtain ⟨b', hb', hlt⟩ := h a' rfl
        have ha' : a' = a ∨ R a' a := by
          rcases List.mem_cons.1 ha with rfl | ha
          · exact Or.inl rfl
          · exact Or.inr ((List.pairwise_cons.1 (hout'.sublist hm.sublist_left)).1 a ha)
        have hb'' : b' = y ∨ R y b' := by
          rcases List.mem_cons.1 hb' with rfl | hb'
          · exact Or.inl rfl
          · exact Or.inr (hb b' (hm.sublist_right.subset hb'))
        exact Or.inr ⟨a', b', ha', hb'', hlt⟩
    · exact ih hout' a ha y hy

end Merges

/-! ### Sorts -/

/-- What a sort by merging can make of a list: parts of it are sorted and merged. -/
inductive MergingSort (lt : α → α → Bool) : List α → List α → Prop
  | nil : MergingSort lt [] []
  | singleton (a : α) : MergingSort lt [a] [a]
  | merge {l l' m m' out : List α} (hl : MergingSort lt l m) (hl' : MergingSort lt l' m')
      (hm : Merges lt m m' out) : MergingSort lt (l ++ l') out

namespace MergingSort

theorem perm (h : MergingSort lt l out) : out.Perm l := by
  induction h with
  | nil => exact List.Perm.nil
  | singleton a => exact List.Perm.refl [a]
  | merge _ _ hm ihl ihl' => exact hm.perm.trans (ihl.append ihl')

/-- If `lt` decides a transitive relation on the pairs of the list, the sort orders the list. -/
theorem pairwise {R : α → α → Prop} (htrans : ∀ {x y z}, R x y → R y z → R x z)
    (h : MergingSort lt l out)
    (hl : l.Pairwise fun a b => (lt b a = false → R a b) ∧ (lt b a = true → R b a)) :
    out.Pairwise R := by
  induction h with
  | nil => exact List.Pairwise.nil
  | singleton a => exact List.pairwise_singleton R a
  | merge hl₁ hl₂ hm ih₁ ih₂ =>
    obtain ⟨hl, hl', hcross⟩ := List.pairwise_append.1 hl
    exact hm.pairwise htrans (ih₁ hl) (ih₂ hl') fun a ha b hb =>
      hcross a (hl₁.perm.subset ha) b (hl₂.perm.subset hb)

/-- What was compared if the result is in order. -/
theorem pairwise_of_pairwise {R : α → α → Prop} (h : MergingSort lt l out)
    (hout : out.Pairwise R) :
    l.Pairwise fun a b =>
      R a b ∨ ∃ a' b', (a' = a ∨ R a' a) ∧ (b' = b ∨ R b b') ∧ lt b' a' = true := by
  induction h with
  | nil => exact List.Pairwise.nil
  | singleton a => exact List.pairwise_singleton _ a
  | merge hl₁ hl₂ hm ih₁ ih₂ =>
    refine List.pairwise_append.2
      ⟨ih₁ (hout.sublist hm.sublist_left), ih₂ (hout.sublist hm.sublist_right), ?_⟩
    intro a ha b hb
    exact hm.of_pairwise hout a (hl₁.perm.symm.subset ha) b (hl₂.perm.symm.subset hb)

/-- A list that descends from neighbour to neighbour, reversed. -/
theorem reverse (h : l.IsChain fun a b => lt b a = true) : MergingSort lt l l.reverse := by
  induction l with
  | nil => exact .nil
  | cons a l ih =>
    rw [List.reverse_cons]
    refine .merge (.singleton a) (ih h.tail) (Merges.singleton_append ?_)
    rw [List.getLast?_reverse]
    exact (List.isChain_cons.1 h).1

/-- A list that does not descend. -/
theorem refl (h : l.IsChain fun a b => lt b a = false) : MergingSort lt l l := by
  induction l with
  | nil => exact .nil
  | cons a l ih =>
    exact .merge (.singleton a) (ih h.tail) (Merges.singleton_left (List.isChain_cons.1 h).1)

end MergingSort

/-! ### Runs and binary insertion -/

/-- `count_run`: the elements up to the first two neighbours `a`, `b` without `r a b`, and the
rest. -/
def takeRun (r : α → α → Bool) (a : α) : List α → List α × List α
  | [] => ([a], [])
  | b :: l =>
    if r a b then (a :: (takeRun r b l).1, (takeRun r b l).2)
    else ([a], b :: l)

/-- The place of `pivot` between `l` and `r`, by bisection. -/
def bisect (lt : α → α → Bool) (pivot : α) (xs : List α) : ℕ → ℕ → ℕ → ℕ
  | 0, l, _ => l
  | fuel + 1, l, r =>
    if l < r then
      match xs[l + (r - l) / 2]? with
      | some x =>
        if lt pivot x then bisect lt pivot xs fuel l (l + (r - l) / 2)
        else bisect lt pivot xs fuel (l + (r - l) / 2 + 1) r
      | none => l
    else l

/-- `pivot` inserted into the sorted part `xs`. -/
def binaryInsert (lt : α → α → Bool) (xs : List α) (pivot : α) : List α :=
  xs.take (bisect lt pivot xs xs.length 0 xs.length) ++
    pivot :: xs.drop (bisect lt pivot xs xs.length 0 xs.length)

/-- The sort of a list of less than 64 elements: its first run, turned if it descends, into which
the other elements are inserted. -/
def binarySort (lt : α → α → Bool) : List α → List α
  | [] => []
  | [a] => [a]
  | a :: b :: l =>
    if lt b a then
      let run := takeRun (fun x y => lt y x) a (b :: l)
      run.2.foldl (binaryInsert lt) run.1.reverse
    else
      let run := takeRun (fun x y => !lt y x) a (b :: l)
      run.2.foldl (binaryInsert lt) run.1

theorem takeRun_append (r : α → α → Bool) (a : α) (l : List α) :
    (takeRun r a l).1 ++ (takeRun r a l).2 = a :: l := by
  induction l generalizing a with
  | nil => rfl
  | cons b l ih =>
    rw [takeRun]
    split_ifs with h
    · rw [List.cons_append, ih]
    · rfl

theorem isChain_takeRun (r : α → α → Bool) (a : α) (l : List α) :
    ((takeRun r a l).1.IsChain fun x y => r x y = true) ∧ (takeRun r a l).1.head? = some a := by
  induction l generalizing a with
  | nil => exact ⟨List.isChain_singleton a, rfl⟩
  | cons b l ih =>
    rw [takeRun]
    split_ifs with h
    · refine ⟨List.isChain_cons.2 ⟨?_, (ih b).1⟩, rfl⟩
      rw [(ih b).2]
      rintro _ ⟨⟩
      exact h
    · exact ⟨List.isChain_singleton a, rfl⟩

/-- Bisection stops between an element that is not greater and one that is. -/
theorem bisect_spec {fuel l r : ℕ} (hfuel : r ≤ l + fuel) (hlr : l ≤ r) (hlen : r ≤ xs.length)
    (hl : ∀ p, p + 1 = l → ∀ a ∈ xs[p]?, lt pivot a = false)
    (hr : ∀ a ∈ xs[r]?, lt pivot a = true) :
    bisect lt pivot xs fuel l r ≤ xs.length ∧
      (∀ p, p + 1 = bisect lt pivot xs fuel l r → ∀ a ∈ xs[p]?, lt pivot a = false) ∧
      ∀ a ∈ xs[bisect lt pivot xs fuel l r]?, lt pivot a = true := by
  induction fuel generalizing l r with
  | zero =>
    obtain rfl : l = r := le_antisymm hlr hfuel
    exact ⟨hlen, hl, hr⟩
  | succ fuel ih =>
    rw [bisect]
    by_cases h : l < r
    · have hp : l + (r - l) / 2 < xs.length := by omega
      rw [if_pos h, List.getElem?_eq_getElem hp]
      dsimp only
      by_cases hx : lt pivot xs[l + (r - l) / 2] = true
      · rw [if_pos hx]
        refine ih (by omega) (by omega) (by omega) hl ?_
        rw [List.getElem?_eq_getElem hp]
        rintro _ ⟨⟩
        exact hx
      · rw [if_neg hx]
        refine ih (by omega) (by omega) hlen ?_ hr
        intro p hpl a ha
        obtain rfl : p = l + (r - l) / 2 := Nat.succ.inj hpl
        rw [List.getElem?_eq_getElem hp] at ha
        obtain rfl := Option.some.inj ha
        exact Bool.eq_false_iff.2 hx
    · rw [if_neg h]
      obtain rfl : l = r := by omega
      exact ⟨hlen, hl, hr⟩

theorem merges_binaryInsert (lt : α → α → Bool) (xs : List α) (pivot : α) :
    Merges lt xs [pivot] (binaryInsert lt xs pivot) := by
  have hfuel : xs.length ≤ 0 + xs.length := by omega
  obtain ⟨hk, hl, hr⟩ := @bisect_spec _ lt pivot xs xs.length 0 xs.length hfuel (Nat.zero_le _)
    le_rfl nofun (by simp)
  exact Merges.insert hk hl hr

/-- Insertion goes on with a sort. -/
theorem MergingSort.foldl_binaryInsert (h : MergingSort lt l m) (l' : List α) :
    MergingSort lt (l ++ l') (l'.foldl (binaryInsert lt) m) := by
  induction l' generalizing l m with
  | nil => rwa [List.append_nil]
  | cons b l' ih =>
    have hb : MergingSort lt (l ++ [b]) (binaryInsert lt m b) :=
      .merge h (.singleton b) (merges_binaryInsert lt m b)
    rw [List.append_cons]
    exact ih hb

/-- Sorting by runs and binary insertion is a sort by merging. -/
theorem mergingSort_binarySort (lt : α → α → Bool) (l : List α) :
    MergingSort lt l (binarySort lt l) := by
  match l with
  | [] => exact .nil
  | [a] => exact .singleton a
  | a :: b :: l =>
    rw [binarySort]
    split_ifs with h
    · have hrun := MergingSort.reverse (isChain_takeRun (fun x y => lt y x) a (b :: l)).1
      have hsort := hrun.foldl_binaryInsert (takeRun (fun x y => lt y x) a (b :: l)).2
      rwa [takeRun_append] at hsort
    · have hchain := (isChain_takeRun (fun x y => !lt y x) a (b :: l)).1
      have hrun : MergingSort lt _ _ :=
        MergingSort.refl (hchain.imp fun _ _ hxy => by simpa using hxy)
      have hsort := hrun.foldl_binaryInsert (takeRun (fun x y => !lt y x) a (b :: l)).2
      rwa [takeRun_append] at hsort

end Series

end Svoe
