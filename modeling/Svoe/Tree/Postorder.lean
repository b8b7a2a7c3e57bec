import Mathlib.Data.List.Basic

/-!
# Rose trees in postorder

`RoseTree.postorder` lists the subtrees of a tree, children before their parent.

* `children_mem_of_postorder_eq` : the children of a subtree have been listed before it.
* `exists_parent_of_postorder_eq` : every subtree but the last is a child of a later one.
* `sizeOf_lt_of_mem_postorderAll` : the tree itself is listed once, at the end.
* `mem_inorder_iff` : parents first, the same subtrees are listed.
-/

namespace Svoe

/-- A tree whose nodes have any number of children. -/
inductive RoseTree (α : Type*) where
  | node (value : α) (children : List (RoseTree α))

namespace RoseTree

variable {α : Type*}

def value : RoseTree α → α
  | .node value _ => value

def children : RoseTree α → List (RoseTree α)
  | .node _ children => children

mutual

/-- The subtrees in postorder. -/
def postorder : RoseTree α → List (RoseTree α)
  | .node value children => postorderAll children ++ [.node value children]

/-- The subtrees of several trees, one tree after the other. -/
def postorderAll : List (RoseTree α) → List (RoseTree α)
  | [] => []
  | t :: ts => t.postorder ++ postorderAll ts

end

theorem postorder_eq (t : RoseTree α) : t.postorder = postorderAll t.children ++ [t] := by
  cases t
  rw [postorder, children]

theorem mem_postorder_self (t : RoseTree α) : t ∈ t.postorder := by
  rw [postorder_eq]
  exact List.mem_append_right _ List.mem_cons_self

theorem sizeOf_lt_of_mem_children {t c : RoseTree α} (h : c ∈ t.children) :
    sizeOf c < sizeOf t := by
  obtain ⟨value, children⟩ := t
  have hlt := List.sizeOf_lt_of_mem (show c ∈ children from h)
  rw [RoseTree.node.sizeOf_spec]
  omega

/-- Induction over a tree, with the hypothesis for every child. -/
theorem induction {P : RoseTree α → Prop} (h : ∀ t, (∀ c ∈ t.children, P c) → P t)
    (t : RoseTree α) : P t :=
  h t fun c _ => induction h c
termination_by sizeOf t
decreasing_by exact sizeOf_lt_of_mem_children ‹_›

/-- A subtree of several trees is a subtree of one of them. -/
theorem postorderAll_eq (ts : List (RoseTree α)) : postorderAll ts = ts.flatMap postorder := by
  induction ts with
  | nil => rw [postorderAll, List.flatMap_nil]
  | cons t ts ih => rw [postorderAll, List.flatMap_cons, ih]

theorem sizeOf_le_of_mem_postorder {t s : RoseTree α} (h : s ∈ t.postorder) :
    sizeOf s ≤ sizeOf t := by
  induction t using induction with
  | h t ih =>
    rw [postorder_eq, postorderAll_eq] at h
    rcases List.mem_append.1 h with h | h
    · obtain ⟨c, hc, hs⟩ := List.mem_flatMap.1 h
      exact Nat.le_trans (ih c hc hs) (Nat.le_of_lt (sizeOf_lt_of_mem_children hc))
    · exact Nat.le_of_eq (by rw [List.mem_singleton.1 h])

theorem sizeOf_lt_of_mem_postorderAll {t s : RoseTree α} (h : s ∈ postorderAll t.children) :
    sizeOf s < sizeOf t := by
  rw [postorderAll_eq] at h
  obtain ⟨c, hc, hs⟩ := List.mem_flatMap.1 h
  exact Nat.lt_of_le_of_lt (sizeOf_le_of_mem_postorder hs) (sizeOf_lt_of_mem_children hc)

theorem not_mem_children_self (t : RoseTree α) : t ∉ t.children := fun h =>
  Nat.lt_irrefl _ (sizeOf_lt_of_mem_children h)

/-- The children of a subtree are subtrees. -/
theorem mem_postorder_of_mem_children {t s c : RoseTree α} (hs : s ∈ t.postorder)
    (hc : c ∈ s.children) : c ∈ t.postorder := by
  induction t using induction with
  | h t ih =>
    rw [postorder_eq, postorderAll_eq] at hs ⊢
    rcases List.mem_append.1 hs with hs | hs
    · obtain ⟨b, hb, hs⟩ := List.mem_flatMap.1 hs
      exact List.mem_append_left _ (List.mem_flatMap.2 ⟨b, hb, ih b hb hs⟩)
    · rw [List.mem_singleton.1 hs] at hc
      exact List.mem_append_left _ (List.mem_flatMap.2 ⟨c, hc, mem_postorder_self c⟩)

/-- A subtree of a subtree is a subtree. -/
theorem mem_postorder_trans {t s u : RoseTree α} (hs : s ∈ t.postorder) (ht : t ∈ u.postorder) :
    s ∈ u.postorder := by
  induction t using induction with
  | h t ih =>
    rw [postorder_eq, postorderAll_eq, List.mem_append, List.mem_flatMap, List.mem_singleton] at hs
    rcases hs with ⟨c, hc, hs⟩ | rfl
    · exact ih c hc hs (mem_postorder_of_mem_children ht hc)
    · exact ht

mutual

/-- The subtrees with every parent before its children. -/
def inorder : RoseTree α → List (RoseTree α)
  | .node value children => .node value children :: inorderAll children

/-- The subtrees of several trees, one tree after the other. -/
def inorderAll : List (RoseTree α) → List (RoseTree α)
  | [] => []
  | t :: ts => t.inorder ++ inorderAll ts

end

theorem mem_inorderAll_iff {ts : List (RoseTree α)} {s : RoseTree α} :
    s ∈ inorderAll ts ↔ ∃ t ∈ ts, s ∈ t.inorder := by
  induction ts with
  | nil => simp [inorderAll]
  | cons t ts ih => rw [inorderAll, List.mem_append, ih, List.exists_mem_cons_iff]

/-- Both orders list the same subtrees. -/
theorem mem_inorder_iff {t s : RoseTree α} : s ∈ t.inorder ↔ s ∈ t.postorder := by
  induction t using induction with
  | h t ih =>
    obtain ⟨value, children⟩ := t
    rw [inorder, postorder, postorderAll_eq, List.mem_cons, mem_inorderAll_iff, List.mem_append,
      List.mem_flatMap, List.mem_singleton, or_comm]
    exact or_congr_left (exists_congr fun c => and_congr_right fun hc => ih c hc)

/-! ### Positions in the order -/

/-- A position in a concatenation is one in a part of it. -/
theorem exists_of_flatMap_eq {β : Type*} {f : β → List α} {bs : List β} {s : α} {l l' : List α}
    (h : bs.flatMap f = l ++ s :: l') :
    ∃ b ∈ bs, ∃ before m m' behind, f b = m ++ s :: m' ∧ l = before ++ m ∧ l' = m' ++ behind := by
  induction bs generalizing l with
  | nil => cases l <;> cases h
  | cons b bs ih =>
    rw [List.flatMap_cons] at h
    rcases List.append_eq_append_iff.1 h with ⟨a, rfl, ha⟩ | ⟨a, hb, ha⟩
    · obtain ⟨c, hc, before, m, m', behind, hfc, rfl, rfl⟩ := ih ha
      exact ⟨c, List.mem_cons_of_mem b hc, f b ++ before, m, m', behind, hfc, by simp, rfl⟩
    · rcases List.cons_eq_append_iff.1 ha with ⟨rfl, hs⟩ | ⟨a, rfl, rfl⟩
      · obtain ⟨c, hc, before, m, m', behind, hfc, hl, rfl⟩ := ih (l := []) hs
        refine ⟨c, List.mem_cons_of_mem b hc, f b ++ before, m, m', behind, hfc, ?_, rfl⟩
        rw [List.append_assoc, ← hl, hb, List.append_nil, List.append_nil]
      · exact ⟨b, List.mem_cons_self, [], l, a, bs.flatMap f, hb, rfl, rfl⟩

/-- A position in the postorder is the last one, or one in the postorder of a child. -/
theorem postorder_split {t s : RoseTree α} {l l' : List (RoseTree α)}
    (h : t.postorder = l ++ s :: l') :
    (s = t ∧ l = postorderAll t.children ∧ l' = []) ∨
      ∃ c ∈ t.children, ∃ before m m' behind, c.postorder = m ++ s :: m' ∧ l = before ++ m ∧
        l' = m' ++ behind ++ [t] := by
  rw [postorder_eq] at h
  rcases l'.eq_nil_or_concat with rfl | ⟨l', x, rfl⟩
  · obtain ⟨hl, hs⟩ := List.append_inj' h rfl
    exact .inl ⟨(List.cons.inj hs).1.symm, hl.symm, rfl⟩
  · have h' : postorderAll t.children ++ [t] = (l ++ s :: l') ++ [x] := by simpa using h
    obtain ⟨hl, hx⟩ := List.append_inj' h' rfl
    obtain rfl := (List.cons.inj hx).1
    rw [postorderAll_eq] at hl
    obtain ⟨c, hc, before, m, m', behind, hcs, rfl, rfl⟩ := exists_of_flatMap_eq hl
    exact .inr ⟨c, hc, before, m, m', behind, hcs, rfl, by simp⟩

/-- **Children first**: the children of a subtree have been listed before it. -/
theorem children_mem_of_postorder_eq {t s : RoseTree α} {l l' : List (RoseTree α)}
    (h : t.postorder = l ++ s :: l') {c : RoseTree α} (hc : c ∈ s.children) : c ∈ l := by
  induction t using induction generalizing l l' with
  | h t ih =>
    rcases postorder_split h with ⟨rfl, rfl, -⟩ | ⟨b, hb, before, m, m', behind, hbs, rfl, -⟩
    · rw [postorderAll_eq]
      exact List.mem_flatMap.2 ⟨c, hc, mem_postorder_self c⟩
    · exact List.mem_append_right before (ih b hb hbs)

/-- **Every subtree but the last is a child of a later one.** -/
theorem exists_parent_of_postorder_eq {t s : RoseTree α} {l l' : List (RoseTree α)}
    (h : t.postorder = l ++ s :: l') (hl' : l' ≠ []) : ∃ p ∈ l', s ∈ p.children := by
  induction t using induction generalizing l l' with
  | h t ih =>
    rcases postorder_split h with ⟨-, -, rfl⟩ | ⟨b, hb, before, m, m', behind, hbs, -, rfl⟩
    · exact absurd rfl hl'
    · by_cases hm : m' = []
      · -- the last subtree of a child is the child
        subst hm
        rw [postorder_eq] at hbs
        obtain ⟨-, hs⟩ := List.append_inj' hbs rfl
        exact ⟨t, by simp, (List.cons.inj hs).1 ▸ hb⟩
      · obtain ⟨p, hp, hps⟩ := ih b hb hbs hm
        exact ⟨p, by simp [hp], hps⟩

end RoseTree

end Svoe
