import Mathlib.Data.Finmap
import Mathlib.Data.Finset.Sort
import Mathlib.Data.Fintype.Defs
import Mathlib.Algebra.Order.Field.Rat

/-!
# The level-2 order book

`OrderBook` is the book `cryptotick_update_state` and `cryptofeed_update_state` keep: per side,
a map from price to size that can be read in price order (best level first).  Every change the
feeds make to a level is an `OrderBook.alter`, so the effect of a change on a lookup is one
lemma (`OrderBook.lookup_alter`), and books with the same lookups are equal (`OrderBook.ext'`).
-/

namespace Svoe

/-- The side of the book an order rests on. -/
inductive Side where
  | bid
  | ask
  deriving DecidableEq, Repr

instance : Fintype Side := ⟨{.bid, .ask}, fun s => by cases s <;> simp⟩

/-- One side of the book: price to size. -/
abbrev BookSide := Finmap fun _ : ℚ => ℚ

/-- The order book: per side, price to size. -/
@[ext]
structure OrderBook where
  /-- The bids, best (highest price) first. -/
  bids : BookSide
  /-- The asks, best (lowest price) first. -/
  asks : BookSide
  deriving DecidableEq

/-- An order of an event: `(side, price, size)`. -/
structure Order where
  side : Side
  price : ℚ
  size : ℚ
  deriving DecidableEq, Repr

namespace OrderBook

/-- The book without levels. -/
def empty : OrderBook := ⟨∅, ∅⟩

/-- `order_book[side]`. -/
def side (b : OrderBook) : Side → BookSide
  | .bid => b.bids
  | .ask => b.asks

/-- The size at a price, if the level is present. -/
def lookup (b : OrderBook) (s : Side) (p : ℚ) : Option ℚ := (b.side s).lookup p

/-- Replace one side. -/
def setSide (b : OrderBook) (m : BookSide) : Side → OrderBook
  | .bid => { b with bids := m }
  | .ask => { b with asks := m }

/-- Change the level at price `p` of side `s`: `f` gets its size (`none` if absent) and gives
the new one (`none` to delete the level). -/
def alter (b : OrderBook) (s : Side) (p : ℚ) (f : Option ℚ → Option ℚ) : OrderBook :=
  b.setSide (match f (b.lookup s p) with
    | some size => (b.side s).insert p size
    | none => (b.side s).erase p) s

/-- The prices of one side, sorted by `r` (insertion sort, so that it evaluates). -/
def sortPrices (m : BookSide) (r : ℚ → ℚ → Prop) [DecidableRel r] [IsTrans ℚ r]
    [Std.Antisymm r] [Std.Total r] : List ℚ :=
  Quot.liftOn m.keys.val (List.insertionSort r) fun _ _ h =>
    (((List.perm_insertionSort r _).trans h).trans (List.perm_insertionSort r _).symm).eq_of_pairwise'
      (List.pairwise_insertionSort r _) (List.pairwise_insertionSort r _)

/-- The prices of a side in book order: bids from the highest, asks from the lowest. -/
def prices (b : OrderBook) : Side → List ℚ
  | .bid => sortPrices b.bids (· ≥ ·)
  | .ask => sortPrices b.asks (· ≤ ·)

/-- `len(order_book.bids)`, `len(order_book.asks)`. -/
def depth (b : OrderBook) (s : Side) : ℕ := (b.prices s).length

@[simp] theorem side_setSide (b : OrderBook) (m : BookSide) (s t : Side) :
    (b.setSide m s).side t = if t = s then m else b.side t := by
  cases s <;> cases t <;> rfl

@[simp] theorem lookup_empty (s : Side) (p : ℚ) : empty.lookup s p = none := by
  cases s <;> rfl

/-- Books with the same lookups are equal. -/
theorem ext' {b c : OrderBook} (h : ∀ s p, b.lookup s p = c.lookup s p) : b = c :=
  OrderBook.ext (Finmap.ext_lookup (h .bid)) (Finmap.ext_lookup (h .ask))

/-- An `alter` changes its own level and no other. -/
theorem lookup_alter (b : OrderBook) (s t : Side) (p q : ℚ) (f : Option ℚ → Option ℚ) :
    (b.alter s p f).lookup t q = if t = s ∧ q = p then f (b.lookup s p) else b.lookup t q := by
  simp only [alter, lookup, side_setSide]
  by_cases ht : t = s
  · subst ht
    simp only [↓reduceIte, true_and]
    by_cases hq : q = p
    · subst hq
      simp only [↓reduceIte]
      split <;> simp_all
    · simp only [hq, ↓reduceIte]
      split
      · exact Finmap.lookup_insert_of_ne _ hq
      · exact Finmap.lookup_erase_ne hq
  · simp [ht]

theorem sortPrices_eq_sort (m : BookSide) (r : ℚ → ℚ → Prop) [DecidableRel r] [IsTrans ℚ r]
    [Std.Antisymm r] [Std.Total r] : sortPrices m r = m.keys.sort r := by
  obtain ⟨l, hl⟩ := Quot.exists_rep m.keys.val
  change Quot.liftOn m.keys.val _ _ = Multiset.sort m.keys.val r
  rw [← hl]
  exact (List.mergeSort_eq_insertionSort r l).symm

theorem mem_prices {b : OrderBook} {s : Side} {p : ℚ} :
    p ∈ b.prices s ↔ (b.lookup s p).isSome := by
  cases s <;> simp [prices, lookup, side, sortPrices_eq_sort, Finmap.mem_keys, Finmap.lookup_isSome]

theorem nodup_prices (b : OrderBook) (s : Side) : (b.prices s).Nodup := by
  cases s <;> simp only [prices, sortPrices_eq_sort] <;> exact Finset.sort_nodup _ _

end OrderBook

end Svoe
