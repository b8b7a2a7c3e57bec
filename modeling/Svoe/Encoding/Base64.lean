import Mathlib.Data.Nat.Notation

/-!
# Base64

Three bytes are written as four characters of an alphabet of 64, the last group padded with `=`.

* `a2bBase64` : the decoder that is not strict, which passes over characters outside the alphabet.
* `a2bBase64_b2aBase64` : what was encoded is decoded to the same bytes.
* `urlsafeB64decode_urlsafeB64encode` : so it is with `-` and `_` for `+` and `/`.
-/

namespace Svoe

namespace Base64

def alphabet : List Char :=
  ['A', 'B', 'C', 'D', 'E', 'F', 'G', 'H', 'I', 'J', 'K', 'L', 'M', 'N', 'O', 'P',
   'Q', 'R', 'S', 'T', 'U', 'V', 'W', 'X', 'Y', 'Z', 'a', 'b', 'c', 'd', 'e', 'f',
   'g', 'h', 'i', 'j', 'k', 'l', 'm', 'n', 'o', 'p', 'q', 'r', 's', 't', 'u', 'v',
   'w', 'x', 'y', 'z', '0', '1', '2', '3', '4', '5', '6', '7', '8', '9', '+', '/']

/-- The character of six bits. -/
def digit (n : ℕ) : Char := alphabet.getD n '='

/-- The six bits of a character, if it is in the alphabet. -/
def value? (c : Char) : Option ℕ := alphabet.idxOf? c

theorem digit_ne_pad : ∀ n < 64, digit n ≠ '=' := by decide

theorem value?_digit : ∀ n < 64, value? (digit n) = some n := by decide

/-- The characters of some bytes, three at a time. -/
def b2aBase64 : List UInt8 → List Char
  | [] => []
  | [a] => [digit (a.toNat / 4), digit (a.toNat % 4 * 16), '=', '=']
  | [a, b] =>
    [digit (a.toNat / 4), digit (a.toNat % 4 * 16 + b.toNat / 16), digit (b.toNat % 16 * 4), '=']
  | a :: b :: c :: rest =>
    digit (a.toNat / 4) :: digit (a.toNat % 4 * 16 + b.toNat / 16) ::
      digit (b.toNat % 16 * 4 + c.toNat / 64) :: digit (c.toNat % 64) :: b2aBase64 rest

/-- Where a decoder stands in a group of four characters, with the bits that wait for more. -/
inductive Quad where
  | start
  | one (leftchar : ℕ)
  | two (leftchar : ℕ)
  | three (leftchar : ℕ)

namespace Quad

/-- How many characters of the group have been read. -/
def pos : Quad → ℕ
  | start => 0
  | one _ => 1
  | two _ => 2
  | three _ => 3

/-- The byte that six more bits complete, and where they leave the decoder. -/
def push : Quad → ℕ → Option UInt8 × Quad
  | start, v => (none, one v)
  | one left, v => (some (UInt8.ofNat (left * 4 + v / 16)), two (v % 16))
  | two left, v => (some (UInt8.ofNat (left * 16 + v / 4)), three (v % 4))
  | three left, v => (some (UInt8.ofNat (left * 64 + v)), start)

end Quad

/-- The bytes of the characters from a place in a group on, after some `=`.  Reading stops at the
`=` that fills the group; a group that is not filled is an error. -/
def decodeFrom : Quad → ℕ → List Char → Option (List UInt8)
  | q, _, [] => if q.pos = 0 then some [] else none
  | q, pads, c :: rest =>
    if c = '=' then
      if 2 ≤ q.pos then
        if 4 ≤ q.pos + (pads + 1) then some [] else decodeFrom q (pads + 1) rest
      else decodeFrom q pads rest
    else
      match value? c with
      | none => decodeFrom q pads rest
      | some v => (decodeFrom (q.push v).2 0 rest).map ((q.push v).1.toList ++ ·)

/-- The bytes of some characters. -/
def a2bBase64 (t : List Char) : Option (List UInt8) := decodeFrom .start 0 t

theorem decodeFrom_digit (q : Quad) (pads : ℕ) {n : ℕ} (h : n < 64) (rest : List Char) :
    decodeFrom q pads (digit n :: rest) =
      (decodeFrom (q.push n).2 0 rest).map ((q.push n).1.toList ++ ·) := by
  rw [decodeFrom, if_neg (digit_ne_pad n h), value?_digit n h]

theorem decodeFrom_two_pads (left : ℕ) : decodeFrom (.two left) 0 ['=', '='] = some [] := by
  rw [decodeFrom, if_pos rfl, Quad.pos, if_pos (by omega), if_neg (by omega), decodeFrom,
    if_pos rfl, Quad.pos, if_pos (by omega), if_pos (by omega)]

theorem decodeFrom_pad (left : ℕ) : decodeFrom (.three left) 0 ['='] = some [] := by
  rw [decodeFrom, if_pos rfl, Quad.pos, if_pos (by omega), if_pos (by omega)]

/-- A byte is put together again from its upper and its lower bits. -/
theorem ofNat_eq_self {n : ℕ} {a : UInt8} (h : n = a.toNat) : UInt8.ofNat n = a := by
  rw [h, UInt8.ofNat_toNat]

theorem a2bBase64_b2aBase64 (bs : List UInt8) : a2bBase64 (b2aBase64 bs) = some bs := by
  rw [a2bBase64]
  induction bs using b2aBase64.induct with
  | case1 => rfl
  | case2 a =>
    have ha := a.toNat_lt
    have hbyte : UInt8.ofNat (a.toNat / 4 * 4 + a.toNat % 4 * 16 / 16) = a :=
      ofNat_eq_self (by omega)
    rw [b2aBase64, decodeFrom_digit _ _ (by omega), decodeFrom_digit _ _ (by omega)]
    show ((decodeFrom (.two (a.toNat % 4 * 16 % 16)) 0 ['=', '=']).map _).map _ = _
    rw [decodeFrom_two_pads]
    show some [UInt8.ofNat (a.toNat / 4 * 4 + a.toNat % 4 * 16 / 16)] = _
    rw [hbyte]
  | case3 a b =>
    have ha := a.toNat_lt
    have hb := b.toNat_lt
    have h1 : UInt8.ofNat (a.toNat / 4 * 4 + (a.toNat % 4 * 16 + b.toNat / 16) / 16) = a :=
      ofNat_eq_self (by omega)
    have h2 : UInt8.ofNat
        ((a.toNat % 4 * 16 + b.toNat / 16) % 16 * 16 + b.toNat % 16 * 4 / 4) = b :=
      ofNat_eq_self (by omega)
    rw [b2aBase64, decodeFrom_digit _ _ (by omega), decodeFrom_digit _ _ (by omega),
      decodeFrom_digit _ _ (by omega)]
    show (((decodeFrom (.three (b.toNat % 16 * 4 % 4)) 0 ['=']).map _).map _).map _ = _
    rw [decodeFrom_pad]
    show some [UInt8.ofNat (a.toNat / 4 * 4 + (a.toNat % 4 * 16 + b.toNat / 16) / 16),
      UInt8.ofNat ((a.toNat % 4 * 16 + b.toNat / 16) % 16 * 16 + b.toNat % 16 * 4 / 4)] = _
    rw [h1, h2]
  | case4 a b c rest ih =>
    have ha := a.toNat_lt
    have hb := b.toNat_lt
    have hc := c.toNat_lt
    have h1 : UInt8.ofNat (a.toNat / 4 * 4 + (a.toNat % 4 * 16 + b.toNat / 16) / 16) = a :=
      ofNat_eq_self (by omega)
    have h2 : UInt8.ofNat ((a.toNat % 4 * 16 + b.toNat / 16) % 16 * 16 +
        (b.toNat % 16 * 4 + c.toNat / 64) / 4) = b :=
      ofNat_eq_self (by omega)
    have h3 : UInt8.ofNat ((b.toNat % 16 * 4 + c.toNat / 64) % 4 * 64 + c.toNat % 64) = c :=
      ofNat_eq_self (by omega)
    rw [b2aBase64, decodeFrom_digit _ _ (by omega), decodeFrom_digit _ _ (by omega),
      decodeFrom_digit _ _ (by omega), decodeFrom_digit _ _ (by omega)]
    show (((((decodeFrom .start 0 (b2aBase64 rest)).map _).map _).map _).map _) = _
    rw [ih]
    show some (_ :: _ :: _ :: rest) = _
    rw [h1, h2, h3]

/-! ### In an address -/

def urlsafeEncodeTranslation (c : Char) : Char :=
  if c = '+' then '-' else if c = '/' then '_' else c

def urlsafeDecodeTranslation (c : Char) : Char :=
  if c = '-' then '+' else if c = '_' then '/' else c

/-- The characters of some bytes, with `-` and `_` for `+` and `/`. -/
def urlsafeB64encode (bs : List UInt8) : List Char := (b2aBase64 bs).map urlsafeEncodeTranslation

/-- The bytes of some characters, with `+` and `/` for `-` and `_`. -/
def urlsafeB64decode (t : List Char) : Option (List UInt8) :=
  a2bBase64 (t.map urlsafeDecodeTranslation)

/-- Where neither `-` nor `_` is written, nothing else is taken for `+` or `/`. -/
theorem urlsafeDecodeTranslation_urlsafeEncodeTranslation {c : Char} (h : c ≠ '-' ∧ c ≠ '_') :
    urlsafeDecodeTranslation (urlsafeEncodeTranslation c) = c := by
  rw [urlsafeEncodeTranslation]
  by_cases hplus : c = '+'
  · rw [if_pos hplus, hplus]
    rfl
  · by_cases hslash : c = '/'
    · rw [if_neg hplus, if_pos hslash, hslash]
      rfl
    · rw [if_neg hplus, if_neg hslash, urlsafeDecodeTranslation, if_neg h.1, if_neg h.2]

theorem digit_ne_urlsafe : ∀ n < 64, digit n ≠ '-' ∧ digit n ≠ '_' := by decide

theorem mem_b2aBase64 {bs : List UInt8} {c : Char} (h : c ∈ b2aBase64 bs) :
    c = '=' ∨ ∃ n < 64, c = digit n := by
  induction bs using b2aBase64.induct with
  | case1 => exact absurd h List.not_mem_nil
  | case2 a =>
    have ha := a.toNat_lt
    rw [b2aBase64] at h
    simp only [List.mem_cons, List.not_mem_nil, or_false] at h
    rcases h with h | h | h | h
    · exact Or.inr ⟨_, by omega, h⟩
    · exact Or.inr ⟨_, by omega, h⟩
    · exact Or.inl h
    · exact Or.inl h
  | case3 a b =>
    have ha := a.toNat_lt
    have hb := b.toNat_lt
    rw [b2aBase64] at h
    simp only [List.mem_cons, List.not_mem_nil, or_false] at h
    rcases h with h | h | h | h
    · exact Or.inr ⟨_, by omega, h⟩
    · exact Or.inr ⟨_, by omega, h⟩
    · exact Or.inr ⟨_, by omega, h⟩
    · exact Or.inl h
  | case4 a b c rest ih =>
    have ha := a.toNat_lt
    have hb := b.toNat_lt
    have hc := c.toNat_lt
    rw [b2aBase64] at h
    simp only [List.mem_cons] at h
    rcases h with h | h | h | h | h
    · exact Or.inr ⟨_, by omega, h⟩
    · exact Or.inr ⟨_, by omega, h⟩
    · exact Or.inr ⟨_, by omega, h⟩
    · exact Or.inr ⟨_, by omega, h⟩
    · exact ih h

theorem urlsafeB64decode_urlsafeB64encode (bs : List UInt8) :
    urlsafeB64decode (urlsafeB64encode bs) = some bs := by
  have htext : (urlsafeB64encode bs).map urlsafeDecodeTranslation = b2aBase64 bs := by
    rw [urlsafeB64encode, List.map_map]
    refine (List.map_congr_left fun c hc => ?_).trans (List.map_id _)
    refine urlsafeDecodeTranslation_urlsafeEncodeTranslation ?_
    rcases mem_b2aBase64 hc with rfl | ⟨n, hn, rfl⟩
    · decide
    · exact digit_ne_urlsafe n hn
  rw [urlsafeB64decode, htext, a2bBase64_b2aBase64]

end Base64

end Svoe
