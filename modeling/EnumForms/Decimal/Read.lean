import EnumForms.Decimal
import EnumForms.Text.Lines

/-!
Reading numerals as people write them: digits of any script, blanks around them, and low lines
between digits. A numeral is brought into plain form first, with ASCII digits only.
-/
namespace EnumForms

/-- The zeros of the decimal digits of Unicode 14.0. The other nine digits follow each zero. -/
def digitZeros : List Nat := [
  0x30, 0x660, 0x6F0, 0x7C0, 0x966, 0x9E6, 0xA66, 0xAE6, 0xB66, 0xBE6, 0xC66, 0xCE6, 0xD66,
  0xDE6, 0xE50, 0xED0, 0xF20, 0x1040, 0x1090, 0x17E0, 0x1810, 0x1946, 0x19D0, 0x1A80, 0x1A90,
  0x1B50, 0x1BB0, 0x1C40, 0x1C50, 0xA620, 0xA8D0, 0xA900, 0xA9D0, 0xA9F0, 0xAA50, 0xABF0, 0xFF10,
  0x104A0, 0x10D30, 0x11066, 0x110F0, 0x11136, 0x111D0, 0x112F0, 0x11450, 0x114D0, 0x11650,
  0x116C0, 0x11730, 0x118E0, 0x11950, 0x11C50, 0x11D50, 0x11DA0, 0x16A60, 0x16AC0, 0x16B50,
  0x1D7CE, 0x1D7D8, 0x1D7E2, 0x1D7EC, 0x1D7F6, 0x1E140, 0x1E2F0, 0x1E950, 0x1FBF0]

namespace CodePoint

def decimalDigit? (c : CodePoint) : Option Nat :=
  (digitZeros.find? fun z => z ≤ c.val && c.val < z + 10).map fun z => c.val - z

def plain? (c : CodePoint) : Option CodePoint :=
  if c.val < 0x7F then some c
  else if c.isBlank then some .space
  else c.decimalDigit?.bind fun d => ofNat? (0x30 + d)

def isMargin (c : CodePoint) : Bool := (0x09 ≤ c.val && c.val ≤ 0x0D) || c.val == 0x20

end CodePoint

namespace Text

/-- The text without the low lines that stand between two digits; none may stand elsewhere. -/
def withoutLowLines : Text → Option Text
  | [] => some []
  | c :: s =>
    if c.is '_' then none
    else match s with
      | u :: d :: s' =>
        if u.is '_' then
          if c.isDigit && d.isDigit then (withoutLowLines (d :: s')).map (c :: ·) else none
        else (withoutLowLines (u :: d :: s')).map (c :: ·)
      | s => (withoutLowLines s).map (c :: ·)

def withoutMargins (t : Text) : Text :=
  ((t.dropWhile CodePoint.isMargin).reverse.dropWhile CodePoint.isMargin).reverse

def numeral? (t : Text) : Option Text := do
  let t ← t.mapM CodePoint.plain?
  withoutLowLines (withoutMargins t)

def splitSign : Text → Bool × Text
  | [] => (false, [])
  | c :: s => if c.is '-' then (true, s) else if c.is '+' then (false, s) else (false, c :: s)

end Text

def Decimal.ofText? (t : Text) : Option Int := do
  let (negative, ds) := Text.splitSign (← t.numeral?)
  if ds ≠ [] ∧ ds.all (·.isDigit) then (value? ds).map (signed negative) else none

end EnumForms
