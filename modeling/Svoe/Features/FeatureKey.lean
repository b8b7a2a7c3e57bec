import Svoe.Tree.Reorder
import Mathlib.Data.String.Basic
import Mathlib.Data.List.Sort
import Mathlib.Logic.Encodable.Basic
import Mathlib.Logic.Equiv.List

/-!
# Feature keys

`_calculate_key` hashes the label flag, the name of the definition and the params of a feature
together with the sorted keys of its children.

* `hashInput_eq_iff` : the hashed lists say everything but the order of the children's keys.
* `calculateKey_canonical` : keys tell features apart up to the order of children, and a change
  anywhere in a feature changes its key.
-/

namespace Svoe

/-- The fields of a `Feature` other than its children and what is computed from them.  `δ` are the
data definitions, `π` the params, compared as dictionaries. -/
structure FeatureFields (δ π : Type*) where
  dataDefinition : δ
  params : π
  name : Option String := none
  isLabel : Bool := false
  deriving DecidableEq

/-- A `Feature` with its children. -/
abbrev NamedFeature (δ π : Type*) := RoseTree (FeatureFields δ π)

/-- A value of the list that is hashed. -/
inductive HashValue (π : Type*) where
  | bool (b : Bool)
  | str (s : String)
  | dict (d : π)
  deriving DecidableEq

variable {δ π : Type*}

/-- The list that is hashed: three fields, then the sorted keys of the children. -/
def hashInput (className : δ → String) (feature : FeatureFields δ π) (depHashes : List String) :
    List (HashValue π) :=
  [.bool feature.isLabel, .str (className feature.dataDefinition), .dict feature.params] ++
    (depHashes.insertionSort (· ≤ ·)).map .str

/-- `_calculate_key`; `hash` is `joblib.hash`, and `className` is `__name__`. -/
def calculateKey (className : δ → String) (hash : List (HashValue π) → String) :
    NamedFeature δ π → String :=
  RoseTree.fold fun feature depHashes => hash (hashInput className feature depHashes)

/-- The fields that the key depends on are equal. -/
def SameFields (className : δ → String) (feature feature' : FeatureFields δ π) : Prop :=
  feature.isLabel = feature'.isLabel ∧
    className feature.dataDefinition = className feature'.dataDefinition ∧
      feature.params = feature'.params

variable {className : δ → String} {hash : List (HashValue π) → String}

/-- The hashed list is unambiguous: behind three fields come the keys of the children, however many
there are. -/
theorem hashInput_eq_iff {feature feature' : FeatureFields δ π} {keys keys' : List String} :
    hashInput className feature keys = hashInput className feature' keys' ↔
      SameFields className feature feature' ∧ keys.Perm keys' := by
  have hstr : Function.Injective (HashValue.str : String → HashValue π) := fun _ _ h =>
    HashValue.str.inj h
  have hsort : keys.insertionSort (· ≤ ·) = keys'.insertionSort (· ≤ ·) ↔ keys.Perm keys' := by
    refine ⟨fun h => ?_, fun h => ?_⟩
    · exact ((List.perm_insertionSort _ keys).symm.trans (by rw [h])).trans
        (List.perm_insertionSort _ keys')
    · exact (((List.perm_insertionSort _ keys).trans h).trans
        (List.perm_insertionSort _ keys').symm).eq_of_pairwise'
          (List.pairwise_insertionSort _ _) (List.pairwise_insertionSort _ _)
  simp only [hashInput, List.cons_append, List.nil_append, List.cons.injEq, HashValue.bool.injEq,
    HashValue.str.injEq, HashValue.dict.injEq, hstr.list_map.eq_iff, hsort, SameFields, and_assoc]

theorem calculateKey_eq_iff (hinj : Function.Injective hash) (t u : NamedFeature δ π) :
    calculateKey className hash t = calculateKey className hash u ↔
      RoseTree.Reordered (SameFields className) t u :=
  RoseTree.fold_eq_fold_iff (fun _ _ _ _ => hinj.eq_iff.trans hashInput_eq_iff) t u

/-- **Keys are canonical.**  They are equal exactly for features that are equal up to the order of
children; a subtree can be exchanged, without a change of the key, exactly for one that is equal to
it in this sense.  So the order of children never matters anywhere, and the label flag, the name of
the definition, the params and the children (up to order) always do. -/
theorem calculateKey_canonical (hinj : Function.Injective hash) :
    (∀ t u : NamedFeature δ π, calculateKey className hash t = calculateKey className hash u ↔
        RoseTree.Reordered (SameFields className) t u) ∧
      (∀ (C : RoseTree.Context (FeatureFields δ π)) (s s' : NamedFeature δ π),
        calculateKey className hash (C.plug s) = calculateKey className hash (C.plug s') ↔
          RoseTree.Reordered (SameFields className) s s') ∧
      (∀ (C : RoseTree.Context (FeatureFields δ π)) (d d' : FeatureFields δ π)
        (cs cs' : List (NamedFeature δ π)),
        calculateKey className hash (C.plug (.node d cs)) =
            calculateKey className hash (C.plug (.node d' cs')) ↔
          SameFields className d d' ∧ ∃ m, cs.Perm m ∧
            List.Forall₂ (RoseTree.Reordered (SameFields className)) m cs') ∧
      ∀ (C : RoseTree.Context (FeatureFields δ π)) (d : FeatureFields δ π)
        (cs cs' : List (NamedFeature δ π)), cs.Perm cs' →
        calculateKey className hash (C.plug (.node d cs)) =
          calculateKey className hash (C.plug (.node d cs')) := by
  have hplug : ∀ (C : RoseTree.Context (FeatureFields δ π)) (s s' : NamedFeature δ π),
      calculateKey className hash (C.plug s) = calculateKey className hash (C.plug s') ↔
        calculateKey className hash s = calculateKey className hash s' := fun C _ _ =>
    RoseTree.fold_plug_eq_iff (fun _ _ _ _ => hinj.eq_iff.trans hashInput_eq_iff) C
  have hrefl : ∀ d : FeatureFields δ π, SameFields className d d := fun _ => ⟨rfl, rfl, rfl⟩
  refine ⟨calculateKey_eq_iff hinj, fun C s s' => ?_, fun C d d' cs cs' => ?_,
    fun C d cs cs' hperm => ?_⟩
  · rw [hplug, calculateKey_eq_iff hinj]
  · rw [hplug, calculateKey_eq_iff hinj, RoseTree.reordered_node_iff]
  · rw [hplug, calculateKey_eq_iff hinj, RoseTree.reordered_node_iff]
    exact ⟨hrefl d, cs', hperm, List.forall₂_same.2 fun c _ => RoseTree.Reordered.refl hrefl c⟩

/-! ### A hash without collisions -/

/-- The hashed values as codes. -/
def HashValue.code : HashValue ℕ → Bool ⊕ List ℕ ⊕ ℕ
  | .bool b => .inl b
  | .str s => .inr (.inl (s.toList.map Char.toNat))
  | .dict d => .inr (.inr d)

/-- Every list gets a string of its own length. -/
def unaryHash (values : List (HashValue ℕ)) : String :=
  String.ofList (List.replicate (Encodable.encode (values.map HashValue.code)) 'x')

theorem unaryHash_injective : Function.Injective unaryHash := by
  have hchar : Function.Injective Char.toNat := fun c d h =>
    Char.ext (UInt32.toNat_inj.1 h)
  have hcode : Function.Injective HashValue.code := by
    intro a b h
    cases a <;> cases b <;>
      simp only [HashValue.code, Sum.inl.injEq, Sum.inr.injEq, reduceCtorEq] at h
    · rw [h]
    · rw [String.toList_inj.1 (hchar.list_map h)]
    · rw [h]
  intro values values' h
  have hlist := String.ofList_injective h
  have hlength := congrArg List.length hlist
  rw [List.length_replicate, List.length_replicate] at hlength
  exact hcode.list_map (Encodable.encode_injective hlength)

/-- A feature with two children, in both orders and as a label. -/
theorem calculateKey_canonical_twoChildren :
    let child (name : String) : NamedFeature String ℕ := .node ⟨name, 0, none, false⟩ []
    let parent (isLabel : Bool) (children : List (NamedFeature String ℕ)) :
      NamedFeature String ℕ := .node ⟨"SpreadFD", 1, none, isLabel⟩ children
    calculateKey id unaryHash (parent false [child "AskFD", child "BidFD"]) =
        calculateKey id unaryHash (parent false [child "BidFD", child "AskFD"]) ∧
      calculateKey id unaryHash (parent false [child "AskFD", child "BidFD"]) ≠
        calculateKey id unaryHash (parent true [child "AskFD", child "BidFD"]) := by
  obtain ⟨-, -, hnode, hperm⟩ :=
    calculateKey_canonical (δ := String) (π := ℕ) unaryHash_injective
  exact ⟨hperm .hole _ _ _ (List.Perm.swap _ _ _), fun h => nomatch ((hnode .hole _ _ _ _).1 h).1.1⟩

end Svoe
