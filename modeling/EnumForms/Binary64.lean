import EnumForms.Decimal

/-!
Binary floating point numbers of 64 bits, held exactly: a finite one is a sign, a whole number
below 2^53 and a power of two. Zero has both signs. `ofRatio` rounds a quotient to the nearest
number, a tie to the even one.
-/
namespace EnumForms

inductive Binary64 where
  /-- Not a number. The tag tells one such value from another. -/
  | nan (tag : Nat)
  | infinite (negative : Bool)
  /-- The number `m · 2^e`, with its sign. -/
  | finite (negative : Bool) (m : Nat) (e : Int)
  deriving DecidableEq

namespace Binary64

def leastExponent : Int := -1074

def greatestExponent : Int := 971

def fullFraction : Nat := 0x10000000000000

def zero (negative : Bool) : Binary64 := .finite negative 0 leastExponent

def scale (base num den : Nat) (e : Int) : Nat × Nat :=
  if 0 ≤ e then (num, den * Nat.pow base e.toNat) else (num * Nat.pow base (-e).toNat, den)

def nearest (num den : Nat) : Nat :=
  let q := num / den
  let r := num % den
  if 2 * r < den then q
  else if den < 2 * r then q + 1
  else q + q % 2

def exponentFor (num den : Nat) : Int :=
  let l : Int := (Nat.log2 num : Int) - Nat.log2 den
  let (n, d) := scale 2 num den l
  max leastExponent (if d ≤ n then l - 52 else l - 53)

/-- The number nearest to `num / den`, of two the even one; infinite past the greatest. -/
def ofRatio (negative : Bool) (num den : Nat) : Binary64 :=
  if num = 0 then zero negative
  else
    let e := exponentFor num den
    let (n, d) := scale 2 num den e
    let m := nearest n d
    let (m, e) := if m = 2 * fullFraction then (fullFraction, e + 1) else (m, e)
    if greatestExponent < e then .infinite negative else .finite negative m e

def ofScientific (negative : Bool) (digits : Nat) (exponent : Int) : Binary64 :=
  let size : Int := (Decimal.ofNat digits).length + exponent
  -- the power is not worked out for a number that is sure to be past either end
  if digits = 0 ∨ size < -330 then zero negative
  else if 310 < size then .infinite negative
  else
    let (num, den) := scale 10 digits 1 (-exponent)
    ofRatio negative num den

def ratio (m : Nat) (e : Int) : Nat × Nat := scale 2 m 1 (-e)

def equal : Binary64 → Binary64 → Bool
  | .infinite s, .infinite s' => s == s'
  | .finite s m e, .finite s' m' e' => (m == 0 && m' == 0) || (s == s' && m == m' && e == e')
  | _, _ => false

def equalInt : Binary64 → Int → Bool
  | .finite negative m e, i =>
    let (n, d) := ratio m e
    n == i.natAbs * d && (i == 0 || decide (i < 0) == negative)
  | _, _ => false

end Binary64

end EnumForms
