import Mathlib.Data.Nat.Notation
import Mathlib.Data.List.Basic

/-!
# Strings in JSON

A string is a list of code points, surrogates among them.  It is written in ASCII: a code point
beyond 16 bits as the escapes of a high and of a low surrogate, which a reader joins again.

* `joinSurrogates` : what a reader makes of a string.
* `scanString_escape` : a string that was written is read as its joined form.
* `joinSurrogates_eq_self_iff` : the form is another one if and only if a high surrogate stands
  right before a low one.
-/

namespace Svoe

namespace Json

abbrev CodePoint := Fin 0x110000

namespace CodePoint

def ofChar (c : Char) : CodePoint := Fin.ofNat _ c.toNat

def IsHighSurrogate (c : CodePoint) : Prop := 0xD800 ≤ c.val ∧ c.val < 0xDC00

def IsLowSurrogate (c : CodePoint) : Prop := 0xDC00 ≤ c.val ∧ c.val < 0xE000

instance : DecidablePred IsHighSurrogate := fun c =>
  inferInstanceAs (Decidable (0xD800 ≤ c.val ∧ c.val < 0xDC00))

instance : DecidablePred IsLowSurrogate := fun c =>
  inferInstanceAs (Decidable (0xDC00 ≤ c.val ∧ c.val < 0xE000))

/-- The code point that a high and a low surrogate stand for. -/
def join (high low : CodePoint) : CodePoint :=
  Fin.ofNat _ (0x10000 + (high.val - 0xD800) * 0x400 + (low.val - 0xDC00))

def highSurrogate (c : CodePoint) : CodePoint := Fin.ofNat _ (0xD800 + (c.val - 0x10000) / 0x400)

def lowSurrogate (c : CodePoint) : CodePoint := Fin.ofNat _ (0xDC00 + (c.val - 0x10000) % 0x400)

/-- The units of 16 bits that a code point is written as. -/
def units (c : CodePoint) : List CodePoint :=
  if c.val < 0x10000 then [c] else [c.highSurrogate, c.lowSurrogate]

theorem val_highSurrogate (c : CodePoint) :
    c.highSurrogate.val = 0xD800 + (c.val - 0x10000) / 0x400 := by
  have h := c.isLt
  rw [highSurrogate, Fin.val_ofNat, Nat.mod_eq_of_lt (by omega)]

theorem val_lowSurrogate (c : CodePoint) :
    c.lowSurrogate.val = 0xDC00 + (c.val - 0x10000) % 0x400 := by
  rw [lowSurrogate, Fin.val_ofNat, Nat.mod_eq_of_lt (by omega)]

theorem isHighSurrogate_highSurrogate (c : CodePoint) : c.highSurrogate.IsHighSurrogate := by
  have h := c.isLt
  rw [IsHighSurrogate, val_highSurrogate]
  omega

theorem isLowSurrogate_lowSurrogate (c : CodePoint) : c.lowSurrogate.IsLowSurrogate := by
  rw [IsLowSurrogate, val_lowSurrogate]
  omega

theorem join_surrogates (h : ¬c.val < 0x10000) : join c.highSurrogate c.lowSurrogate = c := by
  have hlt := c.isLt
  apply Fin.ext
  rw [join, Fin.val_ofNat, val_highSurrogate, val_lowSurrogate, Nat.mod_eq_of_lt (by omega)]
  omega

theorem units_of_surrogate {c : CodePoint} (h : c.IsHighSurrogate ∨ c.IsLowSurrogate) :
    units c = [c] := by
  rcases h with h | h
  · exact if_pos (Nat.lt_trans h.2 (by omega))
  · exact if_pos (Nat.lt_trans h.2 (by omega))

/-- What a code point is written as starts with a low surrogate only if it is one. -/
theorem isLowSurrogate_of_head?_units {c d : CodePoint} {s : List CodePoint}
    (h : d ∈ (units c ++ s).head?) (hd : d.IsLowSurrogate) : c.IsLowSurrogate := by
  rw [units] at h
  split_ifs at h with hc
  · exact Option.mem_some.1 h ▸ hd
  · have hhigh := isHighSurrogate_highSurrogate c
    rw [Option.mem_some.1 h] at hhigh
    exact absurd hhigh.2 (Nat.not_lt.2 hd.1)

end CodePoint

open CodePoint

/-- Every high surrogate joined with the low one right after it. -/
def joinSurrogates : List CodePoint → List CodePoint
  | [] => []
  | [c] => [c]
  | c :: d :: s =>
    if c.IsHighSurrogate ∧ d.IsLowSurrogate then join c d :: joinSurrogates s
    else c :: joinSurrogates (d :: s)

/-- Whether a high surrogate stands right before a low one. -/
def HasSurrogatePair : List CodePoint → Prop
  | [] => False
  | [_] => False
  | c :: d :: s => c.IsHighSurrogate ∧ d.IsLowSurrogate ∨ HasSurrogatePair (d :: s)

instance decidableHasSurrogatePair : DecidablePred HasSurrogatePair
  | [] => inferInstanceAs (Decidable False)
  | [_] => inferInstanceAs (Decidable False)
  | c :: d :: s =>
    have := decidableHasSurrogatePair (d :: s)
    inferInstanceAs (Decidable (c.IsHighSurrogate ∧ d.IsLowSurrogate ∨ HasSurrogatePair (d :: s)))

theorem joinSurrogates_cons {c : CodePoint} {s : List CodePoint}
    (h : c.IsHighSurrogate → ∀ d ∈ s.head?, ¬d.IsLowSurrogate) :
    joinSurrogates (c :: s) = c :: joinSurrogates s := by
  cases s with
  | nil => rfl
  | cons d s => rw [joinSurrogates, if_neg fun hcd => h hcd.1 d rfl hcd.2]

theorem joinSurrogates_pair {c d : CodePoint} (hc : c.IsHighSurrogate) (hd : d.IsLowSurrogate)
    (s : List CodePoint) : joinSurrogates (c :: d :: s) = join c d :: joinSurrogates s := by
  rw [joinSurrogates, if_pos ⟨hc, hd⟩]

theorem length_joinSurrogates_le (s : List CodePoint) : (joinSurrogates s).length ≤ s.length := by
  induction s using joinSurrogates.induct with
  | case1 => exact Nat.le_refl _
  | case2 c => exact Nat.le_refl _
  | case3 c d s hcd ih =>
    rw [joinSurrogates, if_pos hcd, List.length_cons, List.length_cons, List.length_cons]
    omega
  | case4 c d s hcd ih =>
    rw [joinSurrogates, if_neg hcd, List.length_cons, List.length_cons (a := c)]
    omega

theorem joinSurrogates_eq_self_iff (s : List CodePoint) :
    joinSurrogates s = s ↔ ¬HasSurrogatePair s := by
  induction s using joinSurrogates.induct with
  | case1 => exact iff_of_true rfl id
  | case2 c => exact iff_of_true rfl id
  | case3 c d s hcd ih =>
    refine iff_of_false (fun h => ?_) fun h => h (Or.inl hcd)
    have hlen := congrArg List.length h
    have hle := length_joinSurrogates_le s
    rw [joinSurrogates, if_pos hcd, List.length_cons, List.length_cons, List.length_cons] at hlen
    omega
  | case4 c d s hcd ih =>
    rw [joinSurrogates, if_neg hcd, HasSurrogatePair, or_iff_right hcd, ← ih]
    exact ⟨fun h => (List.cons.inj h).2, fun h => by rw [h]⟩

/-- A code point beyond 16 bits is joined again from the units that it is written as. -/
theorem joinSurrogates_units_append {c : CodePoint} (h : ¬c.val < 0x10000)
    (s : List CodePoint) : joinSurrogates (units c ++ s) = c :: joinSurrogates s := by
  rw [units, if_neg h]
  show joinSurrogates (c.highSurrogate :: c.lowSurrogate :: s) = _
  rw [joinSurrogates_pair (isHighSurrogate_highSurrogate c) (isLowSurrogate_lowSurrogate c),
    join_surrogates h]

theorem joinSurrogates_flatMap_units (s : List CodePoint) :
    joinSurrogates (s.flatMap units) = joinSurrogates s := by
  induction s using joinSurrogates.induct with
  | case1 => rfl
  | case2 c =>
    rw [List.flatMap_cons, List.flatMap_nil]
    by_cases hc : c.val < 0x10000
    · rw [units, if_pos hc, List.append_nil]
    · rw [joinSurrogates_units_append hc]
      rfl
  | case3 c d s hcd ih =>
    rw [List.flatMap_cons, List.flatMap_cons, units_of_surrogate (Or.inl hcd.1),
      units_of_surrogate (Or.inr hcd.2), joinSurrogates_pair hcd.1 hcd.2]
    exact (joinSurrogates_pair hcd.1 hcd.2 _).trans (congrArg _ ih)
  | case4 c d s hcd ih =>
    rw [List.flatMap_cons, joinSurrogates, if_neg hcd, ← ih]
    by_cases hc : c.val < 0x10000
    · rw [units, if_pos hc]
      -- the next unit is a low surrogate only if `d` is
      refine joinSurrogates_cons fun hhigh u hu hlow => hcd ⟨hhigh, ?_⟩
      rw [List.flatMap_cons] at hu
      exact isLowSurrogate_of_head?_units hu hlow
    · exact joinSurrogates_units_append hc _

/-! ### Writing -/

def hexDigits : List Char :=
  ['0', '1', '2', '3', '4', '5', '6', '7', '8', '9', 'a', 'b', 'c', 'd', 'e', 'f']

def hexDigit (n : ℕ) : Char := hexDigits.getD n '0'

/-- The escapes of one character, with what they stand for. -/
def shortEscapes : List (Char × CodePoint) :=
  [('"', 34), ('\\', 92), ('b', 8), ('f', 12), ('n', 10), ('r', 13), ('t', 9)]

/-- `\uXXXX`. -/
def escapeUnit (u : CodePoint) : List Char :=
  ['\\', 'u', hexDigit (u.val / 4096), hexDigit (u.val / 256 % 16), hexDigit (u.val / 16 % 16),
    hexDigit (u.val % 16)]

/-- A code point in ASCII. -/
def escapeCodePoint (c : CodePoint) : List Char :=
  if 32 ≤ c.val ∧ c.val ≤ 126 ∧ c.val ≠ 34 ∧ c.val ≠ 92 then [Char.ofNat c.val]
  else
    match shortEscapes.find? fun p => p.2 = c with
    | some p => ['\\', p.1]
    | none => (units c).flatMap escapeUnit

/-- A string in ASCII, between quotes. -/
def escape (s : List CodePoint) : List Char := '"' :: (s.flatMap escapeCodePoint ++ ['"'])

/-! ### Reading -/

def hexValue? (c : Char) : Option ℕ :=
  if '0' ≤ c ∧ c ≤ '9' then some (c.toNat - '0'.toNat)
  else if 'a' ≤ c ∧ c ≤ 'f' then some (c.toNat - 'a'.toNat + 10)
  else if 'A' ≤ c ∧ c ≤ 'F' then some (c.toNat - 'A'.toNat + 10)
  else none

/-- The unit that four digits stand for. -/
def unitOfHex (a b c d : Char) : Option CodePoint := do
  let a ← hexValue? a
  let b ← hexValue? b
  let c ← hexValue? c
  let d ← hexValue? d
  some (Fin.ofNat _ (((a * 16 + b) * 16 + c) * 16 + d))

/-- What the escape of one character stands for. -/
def unescape (e : Char) : Option CodePoint :=
  if e = '/' then some 47 else (shortEscapes.find? fun p => p.1 = e).map Prod.snd

/-- The units up to the closing quote, and the text after it. -/
def scanUnits : List Char → Option (List CodePoint × List Char)
  | [] => none
  | [c] => if c = '"' then some ([], []) else none
  | c :: e :: t =>
    if c = '"' then some ([], e :: t)
    else if c = '\\' then
      if e = 'u' then
        match t with
        | h₁ :: h₂ :: h₃ :: h₄ :: t => do
          let u ← unitOfHex h₁ h₂ h₃ h₄
          let (us, t) ← scanUnits t
          some (u :: us, t)
        | _ => none
      else do
        let u ← unescape e
        let (us, t) ← scanUnits t
        some (u :: us, t)
    else if c.toNat < 32 then none
    else do
      let (us, t) ← scanUnits (e :: t)
      some (ofChar c :: us, t)

/-- The string up to the closing quote, and the text after it. -/
def scanString (t : List Char) : Option (List CodePoint × List Char) :=
  (scanUnits t).map fun p => (joinSurrogates p.1, p.2)

theorem hexValue?_hexDigit : ∀ n < 16, hexValue? (hexDigit n) = some n := by decide

theorem unescape_of_mem_shortEscapes :
    ∀ p ∈ shortEscapes, unescape p.1 = some p.2 ∧ p.1 ≠ 'u' ∧ p.2.val < 0x10000 := by decide

theorem scanUnits_quote (t : List Char) : scanUnits ('"' :: t) = some ([], t) := by
  cases t with
  | nil => rw [scanUnits, if_pos rfl]
  | cons e t =>
    rw [scanUnits.eq_def]
    exact if_pos rfl

theorem scanUnits_escapeUnit {u : CodePoint} (h : u.val < 0x10000) (t : List Char) :
    scanUnits (escapeUnit u ++ t) = (scanUnits t).map fun p => (u :: p.1, p.2) := by
  have hval : unitOfHex (hexDigit (u.val / 4096)) (hexDigit (u.val / 256 % 16))
      (hexDigit (u.val / 16 % 16)) (hexDigit (u.val % 16)) = some u := by
    rw [unitOfHex, hexValue?_hexDigit _ (by omega), hexValue?_hexDigit _ (by omega),
      hexValue?_hexDigit _ (by omega), hexValue?_hexDigit _ (by omega)]
    refine congrArg some (Fin.ext ?_)
    rw [Fin.val_ofNat, Nat.mod_eq_of_lt (by omega)]
    omega
  show scanUnits ('\\' :: 'u' :: _ :: _ :: _ :: _ :: t) = _
  rw [scanUnits, if_neg (by decide), if_pos rfl, if_pos rfl]
  show (unitOfHex _ _ _ _ >>= _) = _
  rw [hval]
  cases scanUnits t with
  | none => rfl
  | some p => rfl

theorem scanUnits_shortEscape {p : Char × CodePoint} (h : p ∈ shortEscapes) (t : List Char) :
    scanUnits ('\\' :: p.1 :: t) = (scanUnits t).map fun q => (p.2 :: q.1, q.2) := by
  have hp := unescape_of_mem_shortEscapes p h
  rw [scanUnits.eq_def]
  dsimp only
  rw [if_neg (by decide), if_pos rfl, if_neg hp.2.1, hp.1]
  cases scanUnits t with
  | none => rfl
  | some q => rfl

theorem scanUnits_raw {c : Char} (hc : c ≠ '"') (hc' : c ≠ '\\') (h : 32 ≤ c.toNat) {t : List Char}
    (ht : t ≠ []) : scanUnits (c :: t) = (scanUnits t).map fun q => (ofChar c :: q.1, q.2) := by
  cases t with
  | nil => exact absurd rfl ht
  | cons e t =>
    rw [scanUnits.eq_def]
    dsimp only
    rw [if_neg hc, if_neg hc', if_neg (Nat.not_lt.2 h)]
    cases scanUnits (e :: t) with
    | none => rfl
    | some q => rfl

theorem toNat_ofNat_ascii : ∀ n < 127, (Char.ofNat n).toNat = n := by decide

theorem scanUnits_escapeCodePoint (c : CodePoint) {t : List Char} (ht : t ≠ []) :
    scanUnits (escapeCodePoint c ++ t) = (scanUnits t).map fun q => (units c ++ q.1, q.2) := by
  rw [escapeCodePoint]
  split_ifs with hraw
  · have hval := toNat_ofNat_ascii c.val (by omega)
    have hunits : units c = [ofChar (Char.ofNat c.val)] := by
      have hofChar : ofChar (Char.ofNat c.val) = c := by
        refine Fin.ext ?_
        rw [ofChar, Fin.val_ofNat, hval, Nat.mod_eq_of_lt c.isLt]
      rw [hofChar, units, if_pos (by omega)]
    have hne : ∀ d : Char, c.val ≠ d.toNat → Char.ofNat c.val ≠ d := fun d hd h =>
      hd (by rw [← h, hval])
    rw [hunits]
    exact scanUnits_raw (hne '"' hraw.2.2.1) (hne '\\' hraw.2.2.2) (by omega) ht
  · cases hfind : shortEscapes.find? fun p => p.2 = c with
    | some p =>
      have hmem := List.mem_of_find?_eq_some hfind
      have hc : p.2 = c := by simpa using List.find?_some hfind
      have hunits : units c = [p.2] := by
        rw [units, if_pos (hc ▸ (unescape_of_mem_shortEscapes p hmem).2.2), hc]
      rw [hunits]
      exact scanUnits_shortEscape hmem t
    | none =>
      show scanUnits ((units c).flatMap escapeUnit ++ t) = _
      rw [units]
      split_ifs with hc
      · rw [List.flatMap_singleton]
        exact scanUnits_escapeUnit hc t
      · have hhigh := (isHighSurrogate_highSurrogate c).2
        have hlow := (isLowSurrogate_lowSurrogate c).2
        rw [List.flatMap_cons, List.flatMap_singleton, List.append_assoc,
          scanUnits_escapeUnit (by omega), scanUnits_escapeUnit (by omega), Option.map_map]
        rfl

/-- A string that was written is read, from after its opening quote, as its joined form. -/
theorem scanString_escape (s : List CodePoint) (t : List Char) :
    scanString ((s.flatMap escapeCodePoint ++ ['"']) ++ t) = some (joinSurrogates s, t) := by
  have hunits : scanUnits (s.flatMap escapeCodePoint ++ '"' :: t) = some (s.flatMap units, t) := by
    induction s with
    | nil => exact scanUnits_quote t
    | cons c s ih =>
      rw [List.flatMap_cons, List.append_assoc, scanUnits_escapeCodePoint c (by simp), ih,
        List.flatMap_cons]
      rfl
  rw [List.append_assoc, List.singleton_append, scanString, hunits, Option.map_some,
    joinSurrogates_flatMap_units]

end Json

end Svoe
