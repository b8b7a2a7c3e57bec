import Svoe.Common.Dict
import Svoe.Encoding.JsonString
import Svoe.Encoding.JsonNumber

/-!
# JSON texts of values

The keys of a mapping are strings or integers; its text has strings only.

* `dumps`, `loads` : the text of a value, and the value of a text.
* `Value.reread` : the value with string keys and joined surrogates.
* `loads_dumps` : it is what is read of the text of a value.
* `reread_eq_self_iff` : the value itself is read if and only if it is `Plain`.
-/

namespace Svoe

namespace Json

/-- A key of a mapping. -/
inductive Key where
  | str (s : List CodePoint)
  | int (z : ℤ)
  deriving DecidableEq

/-- The string that a key is written as. -/
def Key.text : Key → List CodePoint
  | .str s => s
  | .int z => (intText z).map CodePoint.ofChar

inductive Value (F : Type) where
  | null
  | bool (b : Bool)
  | int (z : ℤ)
  | float (x : FloatValue F)
  | str (s : List CodePoint)
  | list (l : List (Value F))
  | dict (d : List (Key × Value F))

variable {F : Type}

namespace Value

theorem sizeOf_lt_list {l : List (Value F)} {v : Value F} (h : v ∈ l) :
    sizeOf v < sizeOf (Value.list l) := by
  have hlt := List.sizeOf_lt_of_mem h
  rw [list.sizeOf_spec]
  omega

theorem sizeOf_lt_dict {d : List (Key × Value F)} {p : Key × Value F} (h : p ∈ d) :
    sizeOf p.2 < sizeOf (Value.dict d) := by
  have hlt := List.sizeOf_lt_of_mem h
  have hp : sizeOf p = 1 + sizeOf p.1 + sizeOf p.2 := Prod.mk.sizeOf_spec p.1 p.2
  rw [dict.sizeOf_spec]
  omega

/-- Induction over a value, with the hypothesis for every element of a list and for every value of
a mapping. -/
theorem induction {P : Value F → Prop} (null : P .null) (bool : ∀ b, P (.bool b))
    (int : ∀ z, P (.int z)) (float : ∀ x, P (.float x)) (str : ∀ s, P (.str s))
    (list : ∀ l : List (Value F), (∀ v ∈ l, P v) → P (.list l))
    (dict : ∀ d : List (Key × Value F), (∀ p ∈ d, P p.2) → P (.dict d)) : ∀ v, P v
  | .null => null
  | .bool b => bool b
  | .int z => int z
  | .float x => float x
  | .str s => str s
  | .list l => list l fun v _ => induction null bool int float str list dict v
  | .dict d => dict d fun p _ => induction null bool int float str list dict p.2
termination_by v => sizeOf v
decreasing_by
  · exact sizeOf_lt_list ‹_›
  · exact sizeOf_lt_dict ‹_›

end Value

/-! ### Writing -/

variable (format : FloatFormat F)

def floatText : FloatValue F → List Char
  | .finite x => format.repr x
  | .infinity => ['I', 'n', 'f', 'i', 'n', 'i', 't', 'y']
  | .negInfinity => ['-', 'I', 'n', 'f', 'i', 'n', 'i', 't', 'y']
  | .nan => ['N', 'a', 'N']

/-- The texts with `, ` between them. -/
def joined : List (List Char) → List Char
  | [] => []
  | [t] => t
  | t :: u :: ts => t ++ ',' :: ' ' :: joined (u :: ts)

mutual

/-- The text of a value. -/
def dumps : Value F → List Char
  | .null => ['n', 'u', 'l', 'l']
  | .bool true => ['t', 'r', 'u', 'e']
  | .bool false => ['f', 'a', 'l', 's', 'e']
  | .int z => intText z
  | .float x => floatText format x
  | .str s => escape s
  | .list l => '[' :: (joined (dumpsAll l) ++ [']'])
  | .dict d => '{' :: (joined (dumpsItems d) ++ ['}'])

def dumpsAll : List (Value F) → List (List Char)
  | [] => []
  | v :: l => dumps v :: dumpsAll l

def dumpsItems : List (Key × Value F) → List (List Char)
  | [] => []
  | (k, v) :: d => (escape k.text ++ ':' :: ' ' :: dumps v) :: dumpsItems d

end

/-- The text of a key and of its value. -/
def itemText (p : Key × Value F) : List Char := escape p.1.text ++ ':' :: ' ' :: dumps format p.2

theorem dumpsAll_eq (l : List (Value F)) : dumpsAll format l = l.map (dumps format) := by
  induction l with
  | nil => rw [dumpsAll, List.map_nil]
  | cons v l ih => rw [dumpsAll, List.map_cons, ih]

theorem dumpsItems_eq (d : List (Key × Value F)) :
    dumpsItems format d = d.map (itemText format) := by
  induction d with
  | nil => rw [dumpsItems, List.map_nil]
  | cons p d ih => rw [dumpsItems, List.map_cons, ih, itemText]

/-! ### Reading -/

def IsSpace (c : Char) : Bool := c = ' ' || c = '\t' || c = '\n' || c = '\r'

def skipSpace (t : List Char) : List Char := t.dropWhile IsSpace

section Loops

variable {α : Type}

/-- The items up to the closing bracket: one, and after each comma one more. -/
def scanItems (item : List Char → Option (α × List Char)) (close : Char) :
    ℕ → List Char → Option (List α × List Char)
  | 0, _ => none
  | n + 1, t => do
    let (a, t) ← item t
    match skipSpace t with
    | [] => none
    | c :: t =>
      if c = close then some ([a], t)
      else if c = ',' then do
        let (as, t) ← scanItems item close n (skipSpace t)
        some (a :: as, t)
      else none

/-- What stands between brackets, from after the opening one. -/
def scanClosed (item : List Char → Option (α × List Char)) (close : Char) (n : ℕ)
    (t : List Char) : Option (List α × List Char) :=
  match skipSpace t with
  | [] => none
  | c :: t => if c = close then some ([], t) else scanItems item close n (c :: t)

/-- A key with its value. -/
def scanPair (scan : List Char → Option (α × List Char)) :
    List Char → Option ((List CodePoint × α) × List Char)
  | [] => none
  | c :: t =>
    if c = '"' then do
      let (s, t) ← scanString t
      match skipSpace t with
      | [] => none
      | c :: t =>
        if c = ':' then do
          let (v, t) ← scan (skipSpace t)
          some ((s, v), t)
        else none
    else none

end Loops

/-- The values that are written as names. -/
def constants : List (List Char × Value F) :=
  [(['n', 'u', 'l', 'l'], .null), (['t', 'r', 'u', 'e'], .bool true),
    (['f', 'a', 'l', 's', 'e'], .bool false), (['N', 'a', 'N'], .float .nan),
    (['I', 'n', 'f', 'i', 'n', 'i', 't', 'y'], .float .infinity),
    (['-', 'I', 'n', 'f', 'i', 'n', 'i', 't', 'y'], .float .negInfinity)]

def scanConstant (t : List Char) : Option (Value F × List Char) :=
  (constants.find? fun p => p.1.isPrefixOf t).map fun p => (p.2, t.drop p.1.length)

/-- The number of some groups. -/
def valueOfGroups (g : Groups) : Value F :=
  if g.frac = [] ∧ g.exp = [] then .int (intOfText g.integer)
  else .float (format.float (g.integer ++ (g.frac ++ g.exp)))

/-- The value at the start of a text, and the text after it. -/
def scanOnce : ℕ → List Char → Option (Value F × List Char)
  | 0, _ => none
  | _ + 1, [] => none
  | n + 1, c :: t =>
    if c = '"' then (scanString t).map fun p => (.str p.1, p.2)
    else if c = '[' then (scanClosed (scanOnce n) ']' n t).map fun p => (.list p.1, p.2)
    else if c = '{' then
      (scanClosed (scanPair (scanOnce n)) '}' n t).map fun p =>
        (.dict (dictOf (p.1.map fun q => (Key.str q.1, q.2))), p.2)
    else
      match scanConstant (c :: t) with
      | some p => some p
      | none => (scanNumber (c :: t)).map fun p => (valueOfGroups format p.1, p.2)

/-- The value of a text. -/
def loads (t : List Char) : Option (Value F) :=
  if t.head? = some '\ufeff' then none
  else
    match scanOnce format (t.length + 1) (skipSpace t) with
    | some (v, t) => if skipSpace t = [] then some v else none
    | none => none

/-! ### What is read of a text that was written -/

/-- A key that is read as itself: a string without a high surrogate right before a low one. -/
def Key.Plain : Key → Prop
  | .str s => ¬HasSurrogatePair s
  | .int _ => False

instance : DecidablePred Key.Plain
  | .str s => inferInstanceAs (Decidable ¬HasSurrogatePair s)
  | .int _ => inferInstanceAs (Decidable False)

/-- A key as it is read again. -/
def Key.reread (k : Key) : Key := .str (joinSurrogates k.text)

mutual

/-- A value as it is read again. -/
def Value.reread : Value F → Value F
  | .null => .null
  | .bool b => .bool b
  | .int z => .int z
  | .float x => .float x
  | .str s => .str (joinSurrogates s)
  | .list l => .list (rereadAll l)
  | .dict d => .dict (dictOf (rereadItems d))

def Value.rereadAll : List (Value F) → List (Value F)
  | [] => []
  | v :: l => v.reread :: rereadAll l

def Value.rereadItems : List (Key × Value F) → List (Key × Value F)
  | [] => []
  | (k, v) :: d => (k.reread, v.reread) :: rereadItems d

end

theorem Value.rereadAll_eq (l : List (Value F)) : rereadAll l = l.map reread := by
  induction l with
  | nil => rw [rereadAll, List.map_nil]
  | cons v l ih => rw [rereadAll, List.map_cons, ih]

theorem Value.rereadItems_eq (d : List (Key × Value F)) :
    rereadItems d = d.map fun p => (p.1.reread, p.2.reread) := by
  induction d with
  | nil => rw [rereadItems, List.map_nil]
  | cons p d ih => rw [rereadItems, List.map_cons, ih]

/-- A text starts with something that is neither blank nor a closing bracket nor a byte order
mark. -/
def Starts (t : List Char) : Prop :=
  ∃ c u, t = c :: u ∧ IsSpace c = false ∧ c ≠ ']' ∧ c ≠ '}' ∧ c ≠ '\ufeff'

/-- `item` reads `a` from a text that goes on in a list or in a mapping, or ends. -/
def Scans {α : Type} (item : List Char → Option (α × List Char)) (t : List Char) (a : α) : Prop :=
  ∀ rest, Ends rest → item (t ++ rest) = some (a, rest)

theorem skipSpace_of_starts {t : List Char} (h : Starts t) (rest : List Char) :
    skipSpace (t ++ rest) = t ++ rest := by
  obtain ⟨c, u, rfl, hc, -⟩ := h
  rw [List.cons_append, skipSpace, List.dropWhile_cons_of_neg (by rw [hc]; decide)]

theorem skipSpace_cons {c : Char} (h : IsSpace c = false) (t : List Char) :
    skipSpace (c :: t) = c :: t := by
  rw [skipSpace, List.dropWhile_cons_of_neg (by rw [h]; decide)]

theorem skipSpace_blank (t : List Char) : skipSpace (' ' :: t) = skipSpace t := by
  rw [skipSpace, List.dropWhile_cons_of_pos (by decide), skipSpace]

theorem length_le_length_joined {t : List Char} {ts : List (List Char)} (h : t ∈ ts) :
    t.length ≤ (joined ts).length := by
  induction ts using joined.induct with
  | case1 => exact absurd h List.not_mem_nil
  | case2 u => rw [List.mem_singleton.1 h, joined]
  | case3 u w ts ih =>
    rw [joined, List.length_append, List.length_cons, List.length_cons]
    rcases List.mem_cons.1 h with rfl | h
    · omega
    · have := ih h
      omega

theorem length_le_length_joined_add_one (ts : List (List Char)) :
    ts.length ≤ (joined ts).length + 1 := by
  induction ts using joined.induct with
  | case1 => exact Nat.zero_le _
  | case2 t => exact Nat.le_add_left _ _
  | case3 t u ts ih =>
    rw [List.length_cons] at ih
    rw [joined, List.length_append, List.length_cons, List.length_cons, List.length_cons,
      List.length_cons]
    omega

theorem Starts.append {t : List Char} (h : Starts t) (u : List Char) : Starts (t ++ u) := by
  obtain ⟨c, w, rfl, hc⟩ := h
  exact ⟨c, w ++ u, List.cons_append, hc⟩

theorem starts_joined {t : List Char} (h : Starts t) (ts : List (List Char)) :
    Starts (joined (t :: ts)) := by
  cases ts with
  | nil => exact h
  | cons u ts => exact h.append _

variable {α β : Type}

section Loops

variable {item : List Char → Option (α × List Char)} {close : Char}
  {text : β → List Char} {value : β → α}

theorem scanItems_last {n : ℕ} {t rest : List Char} {a : α} (h : item t = some (a, close :: rest))
    (hspace : IsSpace close = false) : scanItems item close (n + 1) t = some ([a], rest) := by
  rw [scanItems, h]
  dsimp only [Option.bind_eq_bind, Option.bind_some]
  rw [skipSpace_cons hspace]
  exact if_pos rfl

theorem scanItems_comma {n : ℕ} {t rest : List Char} {a : α} (h : item t = some (a, ',' :: rest))
    (hclose : ',' ≠ close) : scanItems item close (n + 1) t =
      (scanItems item close n (skipSpace rest)).map fun p => (a :: p.1, p.2) := by
  rw [scanItems, h]
  dsimp only [Option.bind_eq_bind, Option.bind_some]
  rw [skipSpace_cons (by decide)]
  dsimp only
  rw [if_neg hclose, if_pos rfl]
  cases scanItems item close n (skipSpace rest) with
  | none => rfl
  | some p => rfl

/-- The items of a list are read from their joined texts, if `item` reads each. -/
theorem scanItems_joined (hclose : close = ']' ∨ close = '}') {l : List β} (hne : l ≠ [])
    (hscan : ∀ b ∈ l, Scans item (text b) (value b)) (hstart : ∀ b ∈ l, Starts (text b)) {n : ℕ}
    (hn : l.length ≤ n) (rest : List Char) :
    scanItems item close n (joined (l.map text) ++ close :: rest) = some (l.map value, rest) := by
  have hends : Ends (close :: rest) := by
    intro c hc
    rw [← Option.mem_some.1 hc]
    exact Or.inr hclose
  have hspace : IsSpace close = false := by
    rcases hclose with rfl | rfl <;> decide
  have hcomma : ',' ≠ close := by
    rcases hclose with rfl | rfl <;> decide
  induction l generalizing n with
  | nil => exact absurd rfl hne
  | cons b l ih =>
    obtain ⟨n, rfl⟩ : ∃ m, n = m + 1 := ⟨n - 1, by rw [List.length_cons] at hn; omega⟩
    have hb := hscan b List.mem_cons_self
    cases l with
    | nil => exact scanItems_last (hb _ hends) hspace
    | cons b' l =>
      have htail := ih (List.cons_ne_nil _ _)
        (fun c hc => hscan c (List.mem_cons_of_mem _ hc))
        (fun c hc => hstart c (List.mem_cons_of_mem _ hc)) (Nat.le_of_succ_le_succ hn)
      have hnext : Starts (joined ((b' :: l).map text)) :=
        starts_joined (hstart b' (List.mem_cons_of_mem _ List.mem_cons_self)) _
      have hsep : Ends (',' :: ' ' :: (joined ((b' :: l).map text) ++ close :: rest)) :=
        fun c hc => Or.inl (Option.mem_some.1 hc).symm
      rw [List.map_cons, List.map_cons, joined, ← List.map_cons, List.append_assoc]
      show scanItems item close (n + 1)
        (text b ++ ',' :: ' ' :: (joined ((b' :: l).map text) ++ close :: rest)) = _
      rw [scanItems_comma (hb _ hsep) hcomma, skipSpace_blank, skipSpace_of_starts hnext, htail]
      rfl

/-- What was written between brackets is read, from after the opening one. -/
theorem scanClosed_joined (hclose : close = ']' ∨ close = '}') {l : List β}
    (hscan : ∀ b ∈ l, Scans item (text b) (value b)) (hstart : ∀ b ∈ l, Starts (text b)) {n : ℕ}
    (hn : l.length ≤ n) (rest : List Char) :
    scanClosed item close n (joined (l.map text) ++ close :: rest) = some (l.map value, rest) := by
  cases l with
  | nil =>
    have hspace : IsSpace close = false := by
      rcases hclose with rfl | rfl <;> decide
    rw [List.map_nil, joined, List.nil_append, scanClosed, skipSpace_cons hspace]
    exact if_pos rfl
  | cons b l =>
    have hstarts : Starts (joined ((b :: l).map text)) :=
      starts_joined (hstart b List.mem_cons_self) _
    obtain ⟨c, u, hu, -, hc⟩ := id hstarts
    have hne : c ≠ close := by
      rcases hclose with rfl | rfl
      · exact hc.1
      · exact hc.2.1
    have hitems := scanItems_joined hclose (List.cons_ne_nil b l) hscan hstart hn rest
    rw [scanClosed, skipSpace_of_starts hstarts]
    rw [hu] at hitems ⊢
    exact (if_neg hne).trans hitems

end Loops

/-- So it is with fuel for the length of the text, where each item has fuel for its own. -/
theorem scanClosed_of_fuel {item : List Char → Option (α × List Char)} {close : Char}
    {text : β → List Char} {value : β → α} (hclose : close = ']' ∨ close = '}') {l : List β} {n : ℕ}
    (hscan : ∀ b ∈ l, (text b).length ≤ n → Scans item (text b) (value b))
    (hstart : ∀ b ∈ l, Starts (text b)) (hn : (joined (l.map text)).length < n)
    (rest : List Char) :
    scanClosed item close n (joined (l.map text) ++ close :: rest) = some (l.map value, rest) := by
  have hlen := length_le_length_joined_add_one (l.map text)
  rw [List.length_map] at hlen
  refine scanClosed_joined hclose (fun b hb => hscan b hb ?_) hstart (by omega) rest
  have hle := length_le_length_joined (List.mem_map_of_mem (f := text) hb)
  omega

/-! ### Each kind of value -/

/-- An integer starts with a digit, or with a minus before a digit. -/
theorem exists_of_isInteger {i : List Char} (h : IsInteger i) : ∃ c u, i = c :: u ∧
    (c.isDigit ∨ c = '-' ∧ ∃ d w, u = d :: w ∧ d.isDigit) := by
  rcases h with h | ⟨ds, h, rfl⟩
  · cases i with
    | nil => exact absurd rfl h.ne_nil
    | cons c u => exact ⟨c, u, rfl, Or.inl (h.digits c List.mem_cons_self)⟩
  · cases ds with
    | nil => exact absurd rfl h.ne_nil
    | cons d w => exact ⟨'-', d :: w, rfl, Or.inr ⟨rfl, d, w, rfl, h.digits d List.mem_cons_self⟩⟩

/-- What starts with a digit is none of the names. -/
theorem ne_of_isDigit {c d : Char} (h : c.isDigit) (hd : d.isDigit = false) : c ≠ d := by
  rintro rfl
  rw [hd] at h
  exact absurd h (by decide)

theorem starts_of_isInteger {i : List Char} (h : IsInteger i) : Starts i := by
  obtain ⟨c, u, rfl, hc⟩ := exists_of_isInteger h
  refine ⟨c, u, rfl, ?_⟩
  rcases hc with hc | ⟨rfl, -⟩
  · refine ⟨?_, ne_of_isDigit hc (by decide), ne_of_isDigit hc (by decide),
      ne_of_isDigit hc (by decide)⟩
    simp [IsSpace, ne_of_isDigit hc (by decide : (' ').isDigit = false),
      ne_of_isDigit hc (by decide : ('\t').isDigit = false),
      ne_of_isDigit hc (by decide : ('\n').isDigit = false),
      ne_of_isDigit hc (by decide : ('\r').isDigit = false)]
  · decide

theorem scanConstant_of_isInteger {i : List Char} (h : IsInteger i) (t : List Char) :
    (scanConstant (i ++ t) : Option (Value F × List Char)) = none := by
  obtain ⟨c, u, rfl, hc⟩ := exists_of_isInteger h
  rw [scanConstant, Option.map_eq_none_iff, List.find?_eq_none]
  rcases hc with hc | ⟨rfl, d, w, rfl, hd⟩
  · have hn := ne_of_isDigit hc (by decide : ('n').isDigit = false)
    have ht := ne_of_isDigit hc (by decide : ('t').isDigit = false)
    have hf := ne_of_isDigit hc (by decide : ('f').isDigit = false)
    have hN := ne_of_isDigit hc (by decide : ('N').isDigit = false)
    have hI := ne_of_isDigit hc (by decide : ('I').isDigit = false)
    have hm := ne_of_isDigit hc (by decide : ('-').isDigit = false)
    simp [constants, hn.symm, ht.symm, hf.symm, hN.symm, hI.symm, hm.symm]
  · have hI := ne_of_isDigit hd (by decide : ('I').isDigit = false)
    simp [constants, hI.symm]

/-- A text that starts as a number does is read as one. -/
theorem scanOnce_number {i f e : List Char} (hi : IsInteger i) (hf : IsFrac f) (he : IsExp e)
    (n : ℕ) : Scans (scanOnce format (n + 1)) (i ++ (f ++ e)) (valueOfGroups format ⟨i, f, e⟩) := by
  intro rest hrest
  obtain ⟨c, u, hu, hc⟩ := exists_of_isInteger hi
  have hnumber := scanNumber_append hi hf he hrest
  have hconstant := scanConstant_of_isInteger (F := F) hi (f ++ (e ++ rest))
  have hne : c ≠ '"' ∧ c ≠ '[' ∧ c ≠ '{' := by
    rcases hc with hc | ⟨rfl, -⟩
    · exact ⟨ne_of_isDigit hc (by decide), ne_of_isDigit hc (by decide),
        ne_of_isDigit hc (by decide)⟩
    · decide
  rw [List.append_assoc, List.append_assoc]
  rw [hu, List.cons_append] at hnumber hconstant ⊢
  rw [scanOnce, if_neg hne.1, if_neg hne.2.1, if_neg hne.2.2, hconstant, hnumber]
  rfl

theorem starts_dumps (v : Value F) : Starts (dumps format v) := by
  cases v with
  | null => exact ⟨'n', _, rfl, by decide⟩
  | bool b =>
    cases b with
    | false => exact ⟨'f', _, rfl, by decide⟩
    | true => exact ⟨'t', _, rfl, by decide⟩
  | int z => exact starts_of_isInteger (isInteger_intText z)
  | float x =>
    cases x with
    | finite x =>
      obtain ⟨i, f, e, hi, -, -, -, heq⟩ := format.isFloatText_repr x
      rw [dumps, floatText, heq]
      exact (starts_of_isInteger hi).append _
    | infinity => exact ⟨'I', _, rfl, by decide⟩
    | negInfinity => exact ⟨'-', _, rfl, by decide⟩
    | nan => exact ⟨'N', _, rfl, by decide⟩
  | str s => exact ⟨'"', _, rfl, by decide⟩
  | list l => exact ⟨'[', _, rfl, by decide⟩
  | dict d => exact ⟨'{', _, rfl, by decide⟩

/-- A name is read as the constant that it stands for. -/
theorem scanOnce_constant {name : List Char} {v : Value F} (h : (name, v) ∈ constants) (n : ℕ) :
    Scans (scanOnce format (n + 1)) name v := by
  intro rest _
  simp only [constants, List.mem_cons, List.not_mem_nil, or_false, Prod.mk.injEq] at h
  rcases h with ⟨rfl, rfl⟩ | ⟨rfl, rfl⟩ | ⟨rfl, rfl⟩ | ⟨rfl, rfl⟩ | ⟨rfl, rfl⟩ | ⟨rfl, rfl⟩ <;> rfl

theorem scanOnce_intText (z : ℤ) (n : ℕ) :
    Scans (scanOnce format (n + 1)) (intText z) (.int z) := by
  have hscan := scanOnce_number format (isInteger_intText z) (Or.inl rfl) (Or.inl rfl) n
  rw [List.append_nil, List.append_nil, valueOfGroups, if_pos ⟨rfl, rfl⟩,
    intOfText_intText] at hscan
  exact hscan

theorem scanOnce_floatText (x : FloatValue F) (n : ℕ) :
    Scans (scanOnce format (n + 1)) (floatText format x) (.float x) := by
  cases x with
  | finite x =>
    obtain ⟨i, f, e, hi, hf, he, hne, heq⟩ := format.isFloatText_repr x
    have hscan := scanOnce_number format hi hf he n
    rw [valueOfGroups, if_neg (fun h => hne.elim (· h.1) (· h.2)), ← heq,
      format.float_repr] at hscan
    exact hscan
  | infinity => exact scanOnce_constant format (by simp [constants, floatText]) n
  | negInfinity => exact scanOnce_constant format (by simp [constants, floatText]) n
  | nan => exact scanOnce_constant format (by simp [constants, floatText]) n

theorem scanOnce_escape (s : List CodePoint) (n : ℕ) :
    Scans (scanOnce format (n + 1)) (escape s) (.str (joinSurrogates s)) := by
  intro rest _
  rw [escape, List.cons_append, scanOnce, if_pos rfl, scanString_escape]
  rfl

theorem scanPair_itemText {scan : List Char → Option (α × List Char)}
    {p : Key × Value F} {a : α} (h : Scans scan (dumps format p.2) a) :
    Scans (scanPair scan) (itemText format p) (joinSurrogates p.1.text, a) := by
  intro rest hrest
  have hstart := skipSpace_of_starts (starts_dumps format p.2) rest
  rw [itemText, escape, List.cons_append, List.cons_append, scanPair, if_pos rfl,
    List.append_assoc _ (':' :: _), scanString_escape]
  dsimp only [Option.bind_eq_bind, Option.bind_some]
  rw [List.cons_append, skipSpace_cons (by decide), List.cons_append]
  dsimp only
  rw [if_pos rfl, skipSpace_blank, hstart, h rest hrest]
  rfl

theorem starts_itemText (p : Key × Value F) : Starts (itemText format p) :=
  ⟨'"', _, rfl, by decide⟩

theorem exists_fuel {v : Value F} {n : ℕ} (h : (dumps format v).length ≤ n) : ∃ m, n = m + 1 := by
  obtain ⟨c, u, hu, -⟩ := starts_dumps format v
  rw [hu, List.length_cons] at h
  exact ⟨n - 1, by omega⟩

/-- With fuel for its length, a text that was written is read. -/
theorem scanOnce_dumps (v : Value F) : ∀ n, (dumps format v).length ≤ n + 1 →
    Scans (scanOnce format (n + 1)) (dumps format v) v.reread := by
  induction v using Value.induction with
  | null => exact fun n _ => scanOnce_constant format (by simp [constants, dumps, Value.reread]) n
  | bool b =>
    intro n _
    cases b with
    | false => exact scanOnce_constant format (by simp [constants, dumps, Value.reread]) n
    | true => exact scanOnce_constant format (by simp [constants, dumps, Value.reread]) n
  | int z =>
    intro n _
    rw [dumps, Value.reread]
    exact scanOnce_intText format z n
  | float x =>
    intro n _
    rw [dumps, Value.reread]
    exact scanOnce_floatText format x n
  | str s =>
    intro n _
    rw [dumps, Value.reread]
    exact scanOnce_escape format s n
  | list l ih =>
    intro n hn rest _
    rw [dumps, List.length_cons, List.length_append, List.length_singleton, dumpsAll_eq] at hn
    have hscan : ∀ v ∈ l, (dumps format v).length ≤ n →
        Scans (scanOnce format n) (dumps format v) v.reread := by
      intro v hv hle
      obtain ⟨m, rfl⟩ := exists_fuel format hle
      exact ih v hv m hle
    have hclosed := scanClosed_of_fuel (Or.inl rfl) hscan (fun v _ => starts_dumps format v)
      (by omega) rest
    rw [dumps, dumpsAll_eq, List.cons_append, List.append_assoc, List.singleton_append, scanOnce,
      if_neg (by decide), if_pos rfl, hclosed, Value.reread, Value.rereadAll_eq]
    rfl
  | dict d ih =>
    intro n hn rest _
    rw [dumps, List.length_cons, List.length_append, List.length_singleton, dumpsItems_eq] at hn
    have hscan : ∀ p ∈ d, (itemText format p).length ≤ n →
        Scans (scanPair (scanOnce format n)) (itemText format p)
          (joinSurrogates p.1.text, p.2.reread) := by
      intro p hp hle
      rw [itemText, List.length_append, List.length_cons, List.length_cons] at hle
      have hvalue : (dumps format p.2).length ≤ n := by omega
      obtain ⟨m, rfl⟩ := exists_fuel format hvalue
      exact scanPair_itemText format (ih p hp m hvalue)
    have hclosed := scanClosed_of_fuel (Or.inr rfl) hscan (fun p _ => starts_itemText format p)
      (by omega) rest
    rw [dumps, dumpsItems_eq, List.cons_append, List.append_assoc, List.singleton_append, scanOnce,
      if_neg (by decide), if_neg (by decide), if_pos rfl, hclosed, Option.map_some, List.map_map,
      Value.reread, Value.rereadItems_eq]
    rfl

/-- What is read of the text of a value. -/
theorem loads_dumps (v : Value F) : loads format (dumps format v) = some v.reread := by
  have hstarts := starts_dumps format v
  have hends : Ends [] := fun c hc => absurd hc (Option.not_mem_none c)
  have hspace := skipSpace_of_starts hstarts []
  have hscan := scanOnce_dumps format v _ (Nat.le_succ _) [] hends
  rw [List.append_nil] at hspace hscan
  have hbom : ¬(dumps format v).head? = some '\ufeff' := by
    obtain ⟨c, u, hu, -, -, -, hc⟩ := hstarts
    rw [hu]
    exact fun h => hc (Option.some.inj h)
  rw [loads, if_neg hbom, hspace, hscan]
  rfl

/-! ### The values that are read as themselves -/

namespace Value

mutual

/-- A value, and all values within its lists and mappings. -/
def within : Value F → List (Value F)
  | .null => [.null]
  | .bool b => [.bool b]
  | .int z => [.int z]
  | .float x => [.float x]
  | .str s => [.str s]
  | .list l => .list l :: withinAll l
  | .dict d => .dict d :: withinItems d

def withinAll : List (Value F) → List (Value F)
  | [] => []
  | v :: l => within v ++ withinAll l

def withinItems : List (Key × Value F) → List (Value F)
  | [] => []
  | (_, v) :: d => within v ++ withinItems d

end

theorem withinAll_eq (l : List (Value F)) : withinAll l = l.flatMap within := by
  induction l with
  | nil => rw [withinAll, List.flatMap_nil]
  | cons v l ih => rw [withinAll, List.flatMap_cons, ih]

theorem withinItems_eq (d : List (Key × Value F)) :
    withinItems d = d.flatMap fun p => within p.2 := by
  induction d with
  | nil => rw [withinItems, List.flatMap_nil]
  | cons p d ih => rw [withinItems, List.flatMap_cons, ih]

/-- The value of a key of a mapping. -/
def get (key : Key) : Value F → Option (Value F)
  | .dict d => dictGet d key
  | _ => none

/-- The element at an index of a list. -/
def item (i : ℕ) : Value F → Option (Value F)
  | .list l => l[i]?
  | _ => none

/-- The keys of a mapping. -/
def keys : Value F → List Key
  | .dict d => d.map Prod.fst
  | _ => []

/-- The string that a value is. -/
def strings : Value F → List (List CodePoint)
  | .str s => [s]
  | _ => []

/-- No mapping at any depth has a key twice. -/
def DistinctKeys (c : Value F) : Prop := ∀ v ∈ c.within, v.keys.Nodup

/-- Every key of every mapping is a string, and no string has a high surrogate right before a low
one. -/
def Plain (c : Value F) : Prop :=
  ∀ v ∈ c.within, (∀ k ∈ v.keys, k.Plain) ∧ ∀ s ∈ v.strings, ¬HasSurrogatePair s

instance (c : Value F) : Decidable c.DistinctKeys :=
  inferInstanceAs (Decidable (∀ v ∈ c.within, v.keys.Nodup))

instance (c : Value F) : Decidable c.Plain :=
  inferInstanceAs (Decidable (∀ v ∈ c.within,
    (∀ k ∈ v.keys, k.Plain) ∧ ∀ s ∈ v.strings, ¬HasSurrogatePair s))

section Everywhere

variable {P : Value F → Prop}

theorem forall_within_list {l : List (Value F)} :
    (∀ v ∈ (Value.list l).within, P v) ↔ P (.list l) ∧ ∀ w ∈ l, ∀ v ∈ w.within, P v := by
  rw [within, withinAll_eq, List.forall_mem_cons, List.forall_mem_flatMap]

theorem forall_within_dict {d : List (Key × Value F)} :
    (∀ v ∈ (Value.dict d).within, P v) ↔ P (.dict d) ∧ ∀ p ∈ d, ∀ v ∈ p.2.within, P v := by
  rw [within, withinItems_eq, List.forall_mem_cons, List.forall_mem_flatMap]

end Everywhere

theorem map_eq_self_iff {α : Type*} {f : α → α} {l : List α} :
    l.map f = l ↔ ∀ a ∈ l, f a = a := by
  conv_lhs => rw [← List.map_id l, List.map_map]
  exact List.map_eq_map_iff

theorem reread_key_eq_self_iff (k : Key) : k.reread = k ↔ k.Plain := by
  cases k with
  | str s => rw [Key.reread, Key.text, Key.str.injEq, joinSurrogates_eq_self_iff, Key.Plain]
  | int z => exact iff_of_false (fun h => Key.noConfusion h) id

/-- A value with distinct keys is read as itself if and only if it is plain. -/
theorem reread_eq_self_iff {c : Value F} (hc : c.DistinctKeys) : c.reread = c ↔ c.Plain := by
  induction c using Value.induction with
  | null => exact iff_of_true rfl (by simp [Plain, within, keys, strings])
  | bool b => exact iff_of_true rfl (by simp [Plain, within, keys, strings])
  | int z => exact iff_of_true rfl (by simp [Plain, within, keys, strings])
  | float x => exact iff_of_true rfl (by simp [Plain, within, keys, strings])
  | str s =>
    rw [reread, Value.str.injEq, joinSurrogates_eq_self_iff]
    simp [Plain, within, keys, strings]
  | list l ih =>
    rw [DistinctKeys, forall_within_list] at hc
    rw [reread, rereadAll_eq, Value.list.injEq, map_eq_self_iff, Plain, forall_within_list,
      and_iff_right (by simp [keys, strings])]
    exact forall₂_congr fun v hv => ih v hv (hc.2 v hv)
  | dict d ih =>
    rw [DistinctKeys, forall_within_dict] at hc
    have hitem : ∀ p ∈ d, ((p.1.reread, p.2.reread) = p ↔ p.1.Plain ∧ p.2.Plain) := by
      intro p hp
      rw [← ih p hp (hc.2 p hp), ← reread_key_eq_self_iff, Prod.ext_iff]
    have hdict : ((∀ k ∈ (Value.dict d).keys, k.Plain) ∧
        ∀ s ∈ (Value.dict d).strings, ¬HasSurrogatePair s) ↔ ∀ p ∈ d, p.1.Plain := by
      rw [keys, List.forall_mem_map]
      exact and_iff_left fun s hs => absurd hs List.not_mem_nil
    rw [reread, rereadItems_eq, Value.dict.injEq, dictOf_map_eq_self_iff hc.1, map_eq_self_iff,
      Plain, forall_within_dict, hdict]
    constructor
    · intro h
      exact ⟨fun p hp => ((hitem p hp).1 (h p hp)).1, fun p hp => ((hitem p hp).1 (h p hp)).2⟩
    · intro h p hp
      exact (hitem p hp).2 ⟨h.1 p hp, h.2 p hp⟩

end Value

end Json

end Svoe
