/-
Strings of UTF-16 code units, and base64 on them: the encoder of the standard alphabet with padding,
and a decoder that also takes the URL-safe alphabet, skips every other character and stops at the
padding. Decoding inverts encoding.
-/
import Mathlib.Data.List.Basic

namespace Text

/-- A string as its UTF-16 code units, surrogates in any order. -/
abbrev Units := List UInt16

/-- The code units of a character. -/
def charUnits (c : Char) : Units :=
  if c.toNat < 0x10000 then [UInt16.ofNat c.toNat]
  else [UInt16.ofNat (0xD800 + (c.toNat - 0x10000) / 0x400), UInt16.ofNat (0xDC00 + (c.toNat - 0x10000) % 0x400)]

/-- The code units of a string. -/
def utf16 (s : String) : Units := s.toList.flatMap charUnits

/-- A printable ASCII character that no text format escapes. -/
def isPlain (u : UInt16) : Bool := 32 ≤ u && u < 127 && u != 34 && u != 92

namespace Base64

/-! ## The alphabet -/

/-- The character of a group of six bits. -/
def digit (n : Nat) : UInt16 :=
  if n < 26 then UInt16.ofNat (65 + n)
  else if n < 52 then UInt16.ofNat (71 + n)
  else if n < 62 then UInt16.ofNat (n - 4)
  else if n = 62 then 43
  else 47

def padding : UInt16 := 61

/-- The six bits a character stands for, in either alphabet. -/
def sextet (u : UInt16) : Option Nat :=
  if 65 ≤ u && u ≤ 90 then some (u.toNat - 65)
  else if 97 ≤ u && u ≤ 122 then some (u.toNat - 71)
  else if 48 ≤ u && u ≤ 57 then some (u.toNat + 4)
  else if u == 43 || u == 45 then some 62
  else if u == 47 || u == 95 then some 63
  else none

theorem sextet_digit {n : Nat} (h : n < 64) : sextet (digit n) = some n ∧ digit n ≠ padding := by
  have hall : ∀ n : Fin 64, sextet (digit n) = some n.val ∧ digit n ≠ padding := by decide +kernel
  exact hall ⟨n, h⟩

/-! ## Encoding and decoding -/

def encode : List UInt8 → Units
  | [] => []
  | [a] => [digit (a.toNat / 4), digit (a.toNat % 4 * 16), padding, padding]
  | [a, b] =>
    [digit (a.toNat / 4), digit (a.toNat % 4 * 16 + b.toNat / 16), digit (b.toNat % 16 * 4), padding]
  | a :: b :: c :: bytes =>
    digit (a.toNat / 4) :: digit (a.toNat % 4 * 16 + b.toNat / 16) ::
      digit (b.toNat % 16 * 4 + c.toNat / 64) :: digit (c.toNat % 64) :: encode bytes

/-- The bytes of groups of six bits; bits left over at the end are dropped. -/
def ofSextets : List Nat → List UInt8
  | x :: y :: z :: w :: rest =>
    UInt8.ofNat (x * 4 + y / 16) :: UInt8.ofNat (y % 16 * 16 + z / 4) :: UInt8.ofNat (z % 4 * 64 + w) :: ofSextets rest
  | [x, y, z] => [UInt8.ofNat (x * 4 + y / 16), UInt8.ofNat (y % 16 * 16 + z / 4)]
  | [x, y] => [UInt8.ofNat (x * 4 + y / 16)]
  | _ => []

/-- The groups of six bits before the padding. -/
def sextets (text : Units) : List Nat := (text.takeWhile (· != padding)).filterMap sextet

def decode (text : Units) : List UInt8 := ofSextets (sextets text)

theorem sextets_digit {n : Nat} (h : n < 64) (text : Units) : sextets (digit n :: text) = n :: sextets text := by
  obtain ⟨hs, hp⟩ := sextet_digit h
  have hne : (digit n != padding) = true := by simp [hp]
  unfold sextets
  simp only [List.takeWhile_cons, hne, if_true, List.filterMap_cons_some hs]

theorem sextets_padding (text : Units) : sextets (padding :: text) = [] := rfl

theorem ofNat_eq {n : Nat} {a : UInt8} (h : n = a.toNat) : UInt8.ofNat n = a := by
  rw [h, UInt8.ofNat_toNat]

theorem decode_encode (bytes : List UInt8) : decode (encode bytes) = bytes := by
  unfold decode
  induction bytes using encode.induct with
  | case1 => rfl
  | case2 a =>
    have ha := a.toNat_lt
    rw [encode, sextets_digit (by omega), sextets_digit (by omega), sextets_padding, ofSextets,
      ofNat_eq (a := a) (by omega)]
  | case3 a b =>
    have ha := a.toNat_lt
    have hb := b.toNat_lt
    rw [encode, sextets_digit (by omega), sextets_digit (by omega), sextets_digit (by omega), sextets_padding,
      ofSextets, ofNat_eq (a := a) (by omega), ofNat_eq (a := b) (by omega)]
  | case4 a b c bytes ih =>
    have ha := a.toNat_lt
    have hb := b.toNat_lt
    have hc := c.toNat_lt
    rw [encode, sextets_digit (by omega), sextets_digit (by omega), sextets_digit (by omega),
      sextets_digit (by omega), ofSextets, ih, ofNat_eq (a := a) (by omega), ofNat_eq (a := b) (by omega),
      ofNat_eq (a := c) (by omega)]

theorem length_encode (bytes : List UInt8) : (encode bytes).length = 4 * ((bytes.length + 2) / 3) := by
  induction bytes using encode.induct with
  | case1 => rfl
  | case2 a => simp [encode]
  | case3 a b => simp [encode]
  | case4 a b c bytes ih =>
    simp only [encode, List.length_cons, ih]
    omega

theorem isPlain_digit (n : Nat) : isPlain (digit n) := by
  have hall : ∀ n : Fin 64, isPlain (digit n) := by decide +kernel
  by_cases h : n < 64
  · exact hall ⟨n, h⟩
  · have hdigit : digit n = 47 := by
      rw [digit, if_neg (by omega), if_neg (by omega), if_neg (by omega), if_neg (by omega)]
    rw [hdigit]
    decide

theorem isPlain_encode (bytes : List UInt8) : ∀ u ∈ encode bytes, isPlain u := by
  have hpadding : isPlain padding := by decide
  induction bytes using encode.induct with
  | case1 => exact fun u hu => absurd hu List.not_mem_nil
  | case2 a => simp [encode, isPlain_digit, hpadding]
  | case3 a b => simp [encode, isPlain_digit, hpadding]
  | case4 a b c bytes ih =>
    rw [encode]
    simpa [isPlain_digit] using ih

end Base64

end Text
