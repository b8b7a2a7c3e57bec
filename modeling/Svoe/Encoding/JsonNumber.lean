import Mathlib.Data.List.TakeWhile
import Mathlib.Data.Int.Notation

/-!
# Numbers in JSON

A number is read in three groups: an integer, a fraction and an exponent.  With one of the last two
it is a float, otherwise an integer.

* `scanNumber_append` : the groups are found again in front of a text that cannot continue them.
* `intOfText_intText` : an integer is read as itself.
* `FloatFormat` : what is used of the texts of floats.
-/

namespace Svoe

namespace Json

/-! ### Reading -/

/-- Some digits, of which the first is a zero only if it is the only one. -/
def scanNatural : List Char → Option (List Char × List Char)
  | [] => none
  | c :: t =>
    if c = '0' then some (['0'], t)
    else if c.isDigit then some (c :: t.takeWhile Char.isDigit, t.dropWhile Char.isDigit)
    else none

def scanInteger : List Char → Option (List Char × List Char)
  | [] => none
  | c :: t =>
    if c = '-' then (scanNatural t).map fun p => ('-' :: p.1, p.2) else scanNatural (c :: t)

def scanFrac : List Char → List Char × List Char
  | [] => ([], [])
  | c :: t =>
    if c = '.' ∧ t.takeWhile Char.isDigit ≠ [] then
      ('.' :: t.takeWhile Char.isDigit, t.dropWhile Char.isDigit)
    else ([], c :: t)

def scanSign : List Char → List Char × List Char
  | [] => ([], [])
  | c :: t => if c = '+' ∨ c = '-' then ([c], t) else ([], c :: t)

def scanExp : List Char → List Char × List Char
  | [] => ([], [])
  | c :: t =>
    if (c = 'e' ∨ c = 'E') ∧ (scanSign t).2.takeWhile Char.isDigit ≠ [] then
      (c :: ((scanSign t).1 ++ (scanSign t).2.takeWhile Char.isDigit),
        (scanSign t).2.dropWhile Char.isDigit)
    else ([], c :: t)

/-- The groups of a number. -/
structure Groups where
  integer : List Char
  frac : List Char
  exp : List Char

/-- The groups of the number at the start of a text, and the text after it. -/
def scanNumber (t : List Char) : Option (Groups × List Char) :=
  (scanInteger t).map fun p =>
    (⟨p.1, (scanFrac p.2).1, (scanExp (scanFrac p.2).2).1⟩, (scanExp (scanFrac p.2).2).2)

/-! ### What is read -/

structure IsNatural (t : List Char) : Prop where
  ne_nil : t ≠ []
  digits : ∀ c ∈ t, c.isDigit
  /-- There is no leading zero. -/
  zero : t.head? = some '0' → t = ['0']

def IsInteger (t : List Char) : Prop := IsNatural t ∨ ∃ ds, IsNatural ds ∧ t = '-' :: ds

def IsFrac (t : List Char) : Prop :=
  t = [] ∨ ∃ ds, ds ≠ [] ∧ (∀ c ∈ ds, c.isDigit) ∧ t = '.' :: ds

def IsExp (t : List Char) : Prop :=
  t = [] ∨ ∃ c sign ds, (c = 'e' ∨ c = 'E') ∧ (sign = [] ∨ sign = ['+'] ∨ sign = ['-']) ∧
    ds ≠ [] ∧ (∀ c ∈ ds, c.isDigit) ∧ t = c :: (sign ++ ds)

/-- A text cannot continue a number if it is empty or goes on in a list or in a mapping. -/
def Ends (t : List Char) : Prop := ∀ c ∈ t.head?, c = ',' ∨ c = ']' ∨ c = '}'

theorem not_isDigit_of_ends {t : List Char} (h : Ends t) : ∀ c ∈ t.head?, ¬c.isDigit := by
  intro c hc
  rcases h c hc with rfl | rfl | rfl <;> decide

theorem span_digits {ds t : List Char} (h : ∀ c ∈ ds, c.isDigit)
    (ht : ∀ c ∈ t.head?, ¬c.isDigit) :
    (ds ++ t).takeWhile Char.isDigit = ds ∧ (ds ++ t).dropWhile Char.isDigit = t := by
  rw [List.takeWhile_append_of_pos h, List.dropWhile_append_of_pos h]
  cases t with
  | nil => exact ⟨List.append_nil ds, rfl⟩
  | cons c t =>
    have hc := ht c rfl
    rw [List.takeWhile_cons_of_neg hc, List.dropWhile_cons_of_neg hc]
    exact ⟨List.append_nil ds, rfl⟩

theorem scanNatural_append {ds t : List Char} (h : IsNatural ds)
    (ht : ∀ c ∈ t.head?, ¬c.isDigit) : scanNatural (ds ++ t) = some (ds, t) := by
  cases ds with
  | nil => exact absurd rfl h.ne_nil
  | cons c ds =>
    rw [List.cons_append, scanNatural]
    split_ifs with hzero hdigit
    · rw [hzero] at h ⊢
      have hnil : ds = [] := (List.cons.inj (h.zero rfl)).2
      rw [hnil, List.nil_append]
    · have hspan := span_digits (fun c hc => h.digits c (List.mem_cons_of_mem _ hc)) ht
      rw [hspan.1, hspan.2]
    · exact absurd (h.digits c List.mem_cons_self) hdigit

theorem scanInteger_append {i t : List Char} (h : IsInteger i)
    (ht : ∀ c ∈ t.head?, ¬c.isDigit) : scanInteger (i ++ t) = some (i, t) := by
  rcases h with h | ⟨ds, h, rfl⟩
  · cases i with
    | nil => exact absurd rfl h.ne_nil
    | cons c ds =>
      have hc : c ≠ '-' := by
        rintro rfl
        exact absurd (h.digits '-' List.mem_cons_self) (by decide)
      rw [List.cons_append, scanInteger, if_neg hc, ← List.cons_append, scanNatural_append h ht]
  · rw [List.cons_append, scanInteger, if_pos rfl, scanNatural_append h ht]
    rfl

theorem scanFrac_append {f t : List Char} (h : IsFrac f) (ht : ∀ c ∈ t.head?, ¬c.isDigit)
    (hdot : ∀ c ∈ t.head?, c ≠ '.') : scanFrac (f ++ t) = (f, t) := by
  rcases h with rfl | ⟨ds, hne, hds, rfl⟩
  · cases t with
    | nil => rfl
    | cons c t => rw [List.nil_append, scanFrac, if_neg fun hc => hdot c rfl hc.1]
  · have hspan := span_digits hds ht
    rw [List.cons_append, scanFrac, hspan.1, hspan.2, if_pos ⟨rfl, hne⟩]

theorem scanSign_append {sign ds : List Char} (h : sign = [] ∨ sign = ['+'] ∨ sign = ['-'])
    (hne : ds ≠ []) (hds : ∀ c ∈ ds, c.isDigit) (t : List Char) :
    scanSign (sign ++ (ds ++ t)) = (sign, ds ++ t) := by
  rcases h with rfl | rfl | rfl
  · cases ds with
    | nil => exact absurd rfl hne
    | cons d ds =>
      have hd : ¬(d = '+' ∨ d = '-') := by
        rintro (rfl | rfl)
        · exact absurd (hds '+' List.mem_cons_self) (by decide)
        · exact absurd (hds '-' List.mem_cons_self) (by decide)
      rw [List.nil_append, List.cons_append, scanSign, if_neg hd]
  · rfl
  · rfl

theorem scanExp_append {e t : List Char} (h : IsExp e) (ht : ∀ c ∈ t.head?, ¬c.isDigit)
    (he : ∀ c ∈ t.head?, c ≠ 'e' ∧ c ≠ 'E') : scanExp (e ++ t) = (e, t) := by
  rcases h with rfl | ⟨c, sign, ds, hc, hsign, hne, hds, rfl⟩
  · cases t with
    | nil => rfl
    | cons c t =>
      rw [List.nil_append, scanExp, if_neg fun hc => hc.1.elim (he c rfl).1 (he c rfl).2]
  · have hspan := span_digits hds ht
    rw [List.cons_append, List.append_assoc, scanExp, scanSign_append hsign hne hds, hspan.1,
      hspan.2, if_pos ⟨hc, hne⟩]

theorem scanNumber_append {i f e t : List Char} (hi : IsInteger i) (hf : IsFrac f) (he : IsExp e)
    (ht : Ends t) : scanNumber (i ++ (f ++ (e ++ t))) = some (⟨i, f, e⟩, t) := by
  have hdigit := not_isDigit_of_ends ht
  have hexp : ∀ c ∈ (e ++ t).head?, ¬c.isDigit ∧ c ≠ '.' := by
    intro c hc
    rcases he with rfl | ⟨d, sign, ds, hd, -, -, -, rfl⟩
    · refine ⟨hdigit c hc, ?_⟩
      rcases ht c hc with rfl | rfl | rfl <;> decide
    · rw [← Option.mem_some.1 hc]
      rcases hd with rfl | rfl <;> decide
  have hfrac : ∀ c ∈ (f ++ (e ++ t)).head?, ¬c.isDigit := by
    intro c hc
    rcases hf with rfl | ⟨ds, -, -, rfl⟩
    · exact (hexp c hc).1
    · rw [← Option.mem_some.1 hc]
      decide
  have hends : ∀ c ∈ t.head?, c ≠ 'e' ∧ c ≠ 'E' := by
    intro c hc
    rcases ht c hc with rfl | rfl | rfl <;> decide
  rw [scanNumber, scanInteger_append hi hfrac, Option.map_some]
  dsimp only
  rw [scanFrac_append hf (fun c hc => (hexp c hc).1) fun c hc => (hexp c hc).2]
  dsimp only
  rw [scanExp_append he hdigit hends]

/-! ### Integers -/

def intText (z : ℤ) : List Char :=
  if z < 0 then '-' :: Nat.toDigits 10 z.natAbs else Nat.toDigits 10 z.natAbs

def intOfText : List Char → ℤ
  | [] => 0
  | c :: t =>
    if c = '-' then -(Nat.ofDigitChars 10 t 0 : ℤ) else (Nat.ofDigitChars 10 (c :: t) 0 : ℤ)

theorem head?_toDigits (n : ℕ) (h : (Nat.toDigits 10 n).head? = some '0') : n = 0 := by
  induction n using Nat.strong_induction_on with
  | h n ih =>
    by_cases hn : n < 10
    · rw [Nat.toDigits_of_lt_base hn] at h
      have hzero : ∀ m < 10, m.digitChar = '0' → m = 0 := by decide
      exact hzero n hn (Option.some.inj h)
    · have hhead : (Nat.toDigits 10 (n / 10)).head? = some '0' := by
        rw [Nat.toDigits_of_base_le (by omega) (by omega), List.head?_append] at h
        cases ht : (Nat.toDigits 10 (n / 10)).head? with
        | none => exact absurd (List.head?_eq_none_iff.1 ht) Nat.toDigits_ne_nil
        | some c => rwa [ht, Option.some_or] at h
      have := ih (n / 10) (by omega) hhead
      omega

theorem isNatural_toDigits (n : ℕ) : IsNatural (Nat.toDigits 10 n) where
  ne_nil := Nat.toDigits_ne_nil
  digits _ hc := Nat.isDigit_of_mem_toDigits (by omega) (by omega) hc
  zero h := by rw [head?_toDigits n h, Nat.toDigits_zero]

theorem isInteger_intText (z : ℤ) : IsInteger (intText z) := by
  rw [intText]
  split_ifs
  · exact Or.inr ⟨_, isNatural_toDigits _, rfl⟩
  · exact Or.inl (isNatural_toDigits _)

theorem intOfText_intText (z : ℤ) : intOfText (intText z) = z := by
  rw [intText]
  split_ifs with hz
  · rw [intOfText, if_pos rfl, Nat.ofDigitChars_ten_toDigits]
    omega
  · have hof : (Nat.ofDigitChars 10 (Nat.toDigits 10 z.natAbs) 0 : ℤ) = z := by
      rw [Nat.ofDigitChars_ten_toDigits]
      omega
    have hnat := isNatural_toDigits z.natAbs
    cases ht : Nat.toDigits 10 z.natAbs with
    | nil => exact absurd ht hnat.ne_nil
    | cons c t =>
      rw [ht] at hof hnat
      have hc : c ≠ '-' := by
        rintro rfl
        exact absurd (hnat.digits '-' List.mem_cons_self) (by decide)
      rw [intOfText, if_neg hc, hof]

/-! ### Floats -/

/-- A float: a finite number, or one of the three constants. -/
inductive FloatValue (F : Type) where
  | finite (x : F)
  | infinity
  | negInfinity
  | nan
  deriving DecidableEq

/-- A text with a fraction or an exponent. -/
def IsFloatText (t : List Char) : Prop :=
  ∃ i f e, IsInteger i ∧ IsFrac f ∧ IsExp e ∧ (f ≠ [] ∨ e ≠ []) ∧ t = i ++ (f ++ e)

/-- The texts of the finite floats. -/
structure FloatFormat (F : Type) where
  repr : F → List Char
  float : List Char → FloatValue F
  isFloatText_repr : ∀ x, IsFloatText (repr x)
  float_repr : ∀ x, float (repr x) = .finite x

end Json

end Svoe
