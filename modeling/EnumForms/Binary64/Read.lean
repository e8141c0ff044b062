import EnumForms.Binary64
import EnumForms.Decimal.Read

/-!
Reading a number in decimal, with or without a fraction and an exponent. The number read is the
nearest one.
-/
namespace EnumForms.Binary64

def splitDigits (t : Text) : Text × Text := (t.takeWhile (·.isDigit), t.dropWhile (·.isDigit))

def splitFraction (t : Text) : Text × Text :=
  match t with
  | c :: s => if c.is '.' then splitDigits s else ([], t)
  | [] => ([], [])

def exponentAt (t : Text) : Int :=
  match t with
  | c :: s =>
    if c.is 'e' || c.is 'E' then
      match s with
      | d :: ds =>
        if d.is '-' then -Decimal.value (splitDigits ds).1
        else if d.is '+' then Decimal.value (splitDigits ds).1
        else Decimal.value (splitDigits s).1
      | [] => 0
    else 0
  | [] => 0

def ofLiteral (t : Text) : Binary64 :=
  let (negative, s) := Decimal.unsigned t
  let (whole, s) := splitDigits s
  let (fraction, s) := splitFraction s
  ofScientific negative (Decimal.value (whole ++ fraction)) (exponentAt s - fraction.length)

def isExponent : Text → Bool
  | [] => true
  | c :: s =>
    (c.is 'e' || c.is 'E') &&
      let ds := match s with
        | d :: ds => if d.is '-' || d.is '+' then ds else s
        | [] => []
      ds ≠ [] && ds.all (·.isDigit)

def isLiteral (t : Text) : Bool :=
  let (whole, s) := splitDigits t
  let (fraction, s) := splitFraction s
  whole ++ fraction ≠ [] && isExponent s

def lowerCase (t : Text) : Text :=
  t.map fun c => if h : c.isUpperLetter then ⟨c.val + 0x20, by
    have := c.isLt; simp [CodePoint.isUpperLetter] at h; omega⟩ else c

/-- A number as people write it, or the name of infinity or of what is not a number, which gets the
tag. -/
def ofText? (tag : Nat) (t : Text) : Option Binary64 := do
  let (negative, s) := Text.splitSign (← t.numeral?)
  let name := lowerCase s
  if name = lit "nan" then some (.nan tag)
  else if name = lit "inf" ∨ name = lit "infinity" then some (.infinite negative)
  else if isLiteral s then some (ofLiteral (if negative then lit "-" ++ s else s))
  else none

end EnumForms.Binary64
