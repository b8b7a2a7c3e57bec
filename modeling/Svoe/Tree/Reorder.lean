import Svoe.Tree.Postorder
import Mathlib.Data.List.Perm.Basic
import Mathlib.Data.Multiset.AddSub

/-!
# Trees up to the order of children

* `RoseTree.Reordered` : equality up to the order of the children at every node.
* `RoseTree.fold_eq_fold_iff` : a bottom-up function that forgets the order of the results of the
  children, and nothing else, tells trees apart up to that.
* `RoseTree.fold_plug_eq_iff` : such a function sees a change anywhere in a tree.
-/

namespace Svoe

namespace RoseTree

variable {α β : Type*}

mutual

/-- What a function makes of a tree, from the leaves up. -/
def fold (f : α → List β → β) : RoseTree α → β
  | .node value children => f value (foldAll f children)

/-- What a function makes of several trees. -/
def foldAll (f : α → List β → β) : List (RoseTree α) → List β
  | [] => []
  | t :: ts => fold f t :: foldAll f ts

end

theorem foldAll_eq_map (f : α → List β → β) (ts : List (RoseTree α)) :
    foldAll f ts = ts.map (fold f) := by
  induction ts with
  | nil => rfl
  | cons t ts ih => rw [foldAll, ih, List.map_cons]

theorem fold_node (f : α → List β → β) (value : α) (children : List (RoseTree α)) :
    fold f (.node value children) = f value (children.map (fold f)) := by
  rw [fold, foldAll_eq_map]

/-- The trees are equal up to the order of the children at every node; `r` compares the values. -/
inductive Reordered (r : α → α → Prop) : RoseTree α → RoseTree α → Prop where
  | node {v w : α} {cs cs' ds : List (RoseTree α)} (hvalue : r v w) (hperm : cs.Perm cs')
    (hchildren : List.Forall₂ (Reordered r) cs' ds) : Reordered r (.node v cs) (.node w ds)

theorem reordered_node_iff {r : α → α → Prop} {v w : α} {cs ds : List (RoseTree α)} :
    Reordered r (.node v cs) (.node w ds) ↔
      r v w ∧ ∃ cs', cs.Perm cs' ∧ List.Forall₂ (Reordered r) cs' ds := by
  constructor
  · rintro ⟨hvalue, hperm, hchildren⟩
    exact ⟨hvalue, _, hperm, hchildren⟩
  · rintro ⟨hvalue, cs', hperm, hchildren⟩
    exact .node hvalue hperm hchildren

theorem Reordered.refl {r : α → α → Prop} (hr : ∀ v, r v v) (t : RoseTree α) :
    Reordered r t t := by
  induction t using induction with
  | h t ih =>
    obtain ⟨v, cs⟩ := t
    exact .node (hr v) (List.Perm.refl cs) (List.forall₂_same.2 ih)

/-- Lists with the same results in some order can be put side by side. -/
theorem map_perm_map_iff_exists {γ δ : Type*} {g : γ → δ} {l l' : List γ} :
    (l.map g).Perm (l'.map g) ↔ ∃ m, l.Perm m ∧ List.Forall₂ (fun a b => g a = g b) m l' := by
  constructor
  · intro h
    have hcomp : Relation.Comp (List.Forall₂ fun a b => g a = b) List.Perm l (l'.map g) :=
      ⟨l.map g, List.forall₂_map_right_iff.2 (List.forall₂_same.2 fun _ _ => rfl), h⟩
    rw [List.forall₂_comp_perm_eq_perm_comp_forall₂] at hcomp
    obtain ⟨m, hm, hall⟩ := hcomp
    exact ⟨m, hm, List.forall₂_map_right_iff.1 hall⟩
  · rintro ⟨m, hm, hall⟩
    have heq : m.map g = l'.map g := by
      rw [← List.forall₂_eq_eq_eq]
      exact List.forall₂_map_left_iff.2 (List.forall₂_map_right_iff.2 hall)
    exact heq ▸ hm.map g

variable {f : α → List β → β} {r : α → α → Prop}

/-- **Trees with the same result**, of a function that forgets the order of the results of the
children and nothing else that `r` sees. -/
theorem fold_eq_fold_iff (hf : ∀ v w ks ls, f v ks = f w ls ↔ r v w ∧ ks.Perm ls)
    (t u : RoseTree α) : fold f t = fold f u ↔ Reordered r t u := by
  induction t using induction generalizing u with
  | h t ih =>
    obtain ⟨v, cs⟩ := t
    obtain ⟨w, ds⟩ := u
    rw [fold_node, fold_node, hf, map_perm_map_iff_exists, reordered_node_iff]
    refine and_congr_right fun _ => exists_congr fun cs' => and_congr_right fun hperm => ?_
    have hcs' : ∀ c ∈ cs', ∀ u, fold f c = fold f u ↔ Reordered r c u := fun c hc =>
      ih c (hperm.mem_iff.2 hc)
    clear ih hperm
    induction cs' generalizing ds with
    | nil => rw [List.forall₂_nil_left_iff, List.forall₂_nil_left_iff]
    | cons c cs' ih =>
      cases ds with
      | nil => exact iff_of_false nofun nofun
      | cons d ds =>
        have htail := ih ds fun x hx => hcs' x (List.mem_cons_of_mem c hx)
        rw [List.forall₂_cons, List.forall₂_cons, hcs' c List.mem_cons_self]
        exact and_congr_right fun _ => htail

/-! ### A change somewhere in a tree -/

/-- A tree with a hole. -/
inductive Context (α : Type*) where
  | hole
  | node (value : α) (before : List (RoseTree α)) (context : Context α) (behind : List (RoseTree α))

/-- The tree with the hole filled. -/
def Context.plug : Context α → RoseTree α → RoseTree α
  | .hole, t => t
  | .node value before context behind, t => .node value (before ++ context.plug t :: behind)

/-- **A change anywhere is seen**: trees that differ in a subtree have the same result exactly when
the subtrees have. -/
theorem fold_plug_eq_iff (hf : ∀ v w ks ls, f v ks = f w ls ↔ r v w ∧ ks.Perm ls)
    (context : Context α) {t u : RoseTree α} :
    fold f (context.plug t) = fold f (context.plug u) ↔ fold f t = fold f u := by
  induction context with
  | hole => rfl
  | node value before context behind ih =>
    have hvalue : r value value := ((hf value value [] []).1 rfl).1
    rw [Context.plug, Context.plug, fold_node, fold_node, hf, ← ih]
    simp only [hvalue, true_and, List.map_append, List.map_cons, List.perm_append_left_iff]
    rw [← Multiset.coe_eq_coe, ← Multiset.cons_coe, ← Multiset.cons_coe, Multiset.cons_inj_left]

end RoseTree

end Svoe
