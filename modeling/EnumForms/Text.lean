/-!
Texts as sequences of code points. Surrogates are code points like any other: an escape may name
one, so a text need not be valid UTF-8.
-/
namespace EnumForms

/-- A Unicode code point, U+0000 to U+10FFFF. -/
structure CodePoint where
  val : Nat
  isLt : val < 0x110000
  deriving DecidableEq

abbrev Text := List CodePoint

namespace CodePoint

def ofNat? (n : Nat) : Option CodePoint :=
  if h : n < 0x110000 then some ⟨n, h⟩ else none

def ofChar (c : Char) : CodePoint :=
  ⟨c.toNat, by
    have h : c.val.toNat.isValidChar := c.valid
    have e : c.toNat = c.val.toNat := rfl
    simp only [Nat.isValidChar] at h
    omega⟩

def isSurrogate (c : CodePoint) : Bool := 0xD800 ≤ c.val && c.val ≤ 0xDFFF

def newline : CodePoint := ⟨0x0A, by decide⟩
def carriageReturn : CodePoint := ⟨0x0D, by decide⟩
def escape : CodePoint := ⟨0x1B, by decide⟩
def space : CodePoint := ⟨0x20, by decide⟩
def quotation : CodePoint := ⟨0x22, by decide⟩
def apostrophe : CodePoint := ⟨0x27, by decide⟩
def backslash : CodePoint := ⟨0x5C, by decide⟩

def is (c : CodePoint) (ch : Char) : Bool := c.val == ch.toNat

theorem is_iff {c : CodePoint} {ch : Char} : c.is ch = true ↔ c = .ofChar ch := by
  cases c
  simp [is, ofChar]

def isDigit (c : CodePoint) : Bool := 0x30 ≤ c.val && c.val ≤ 0x39
def isOctal (c : CodePoint) : Bool := 0x30 ≤ c.val && c.val ≤ 0x37
def isLowerLetter (c : CodePoint) : Bool := 0x61 ≤ c.val && c.val ≤ 0x7A
def isUpperLetter (c : CodePoint) : Bool := 0x41 ≤ c.val && c.val ≤ 0x5A
def isAlphanumeric (c : CodePoint) : Bool := c.isDigit || c.isLowerLetter || c.isUpperLetter

/-- The value of a digit or letter as a digit: `0` to `9`, then `a` to `z` from ten on, in either
case. -/
def digit? (c : CodePoint) : Option Nat :=
  if c.isDigit then some (c.val - 0x30)
  else if c.isLowerLetter then some (c.val - 0x61 + 10)
  else if c.isUpperLetter then some (c.val - 0x41 + 10)
  else none

def isHex (c : CodePoint) : Bool := c.digit?.any (· < 16)

end CodePoint

def lit (s : String) : Text := s.toList.map CodePoint.ofChar

namespace Text

def join (sep : Text) (pieces : List Text) : Text := (pieces.intersperse sep).flatten

def spaces (n : Nat) : Text := List.replicate n .space

def hex (width n : Nat) : Text :=
  let ds := (Nat.toDigits 16 n).map CodePoint.ofChar
  List.replicate (width - ds.length) (.ofChar '0') ++ ds

def upperHex (n : Nat) : Text := (Nat.toDigits 16 n).map fun c => .ofChar c.toUpper

end Text

end EnumForms
