import EnumForms.Binary64

/-!
The fewest decimal digits that read back as a given number, and the layout in which they are
written.
-/
namespace EnumForms.Binary64

/-- A decimal number `digits · 10^exponent`. -/
structure Decimal10 where
  digits : Nat
  exponent : Int
  deriving DecidableEq

def belowPower (num den : Nat) (k : Int) : Bool :=
  let (n, d) := scale 10 num den k
  n < d

def decimalSize (num den : Nat) : Int :=
  let l : Int := (Nat.log2 num : Int) - Nat.log2 den
  let guess := l * 30103 / 100000
  ([guess - 1, guess, guess + 1].find? (belowPower num den)).getD (guess + 2)

/-- The neighbour of `num / den` with `n` digits that reads back as the number; of two the nearer
one, and of two as near the even one. -/
def withDigits? (m : Nat) (e : Int) (n : Nat) : Option Decimal10 :=
  let (num, den) := ratio m e
  let exponent := decimalSize num den - n
  let (num, den) := scale 10 num den exponent
  let low := num / den
  let readsBack (digits : Nat) : Bool := ofScientific false digits exponent == .finite false m e
  match readsBack low, readsBack (low + 1) with
  | true, true => some ⟨nearest num den, exponent⟩
  | true, false => some ⟨low, exponent⟩
  | false, true => some ⟨low + 1, exponent⟩
  | false, false => none

def exact (m : Nat) (e : Int) : Decimal10 :=
  if 0 ≤ e then ⟨m * Nat.pow 2 e.toNat, 0⟩ else ⟨m * Nat.pow 5 (-e).toNat, e⟩

def shortest (m : Nat) (e : Int) : Decimal10 :=
  ((List.range 17).findSome? fun n => withDigits? m e (n + 1)).getD (exact m e)

def significant (n : Nat) : Text := ((Decimal.ofNat n).reverse.dropWhile (·.is '0')).reverse

def zeros (n : Nat) : Text := List.replicate n (.ofChar '0')

def positional (ds : Text) (point : Int) : Text :=
  if point ≤ 0 then lit "0." ++ zeros (-point).toNat ++ ds
  else if ds.length ≤ point then ds ++ zeros (point.toNat - ds.length) ++ lit ".0"
  else ds.take point.toNat ++ lit "." ++ ds.drop point.toNat

def withPower (ds : Text) (power : Int) : Text :=
  let mantissa := if ds.length ≤ 1 then ds else ds.take 1 ++ lit "." ++ ds.drop 1
  let size := Decimal.ofNat power.natAbs
  mantissa ++ (if power < 0 then lit "e-" else lit "e+") ++ zeros (2 - size.length) ++ size

/-- The number as text: positional from 0.0001 to below 10^16, with a power of ten elsewhere. -/
def text : Binary64 → Text
  | .nan _ => lit "nan"
  | .infinite negative => if negative then lit "-inf" else lit "inf"
  | .finite negative m e =>
    let magnitude :=
      if m = 0 then lit "0.0"
      else
        let d := shortest m e
        let ds := significant d.digits
        let point : Int := (Decimal.ofNat d.digits).length + d.exponent
        if -4 < point ∧ point ≤ 16 then positional ds point else withPower ds (point - 1)
    if negative then lit "-" ++ magnitude else magnitude

end EnumForms.Binary64
