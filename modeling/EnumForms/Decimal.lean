import EnumForms.Text

/-!
Integers in decimal. Writing and reading a numeral of more than 4300 digits is refused, the sign
not counted.
-/
namespace EnumForms

theorem CodePoint.isDigit_ofChar (ch : Char) : (CodePoint.ofChar ch).isDigit = ch.isDigit := by
  have h0 : '0'.val.toNat = 0x30 := rfl
  have h9 : '9'.val.toNat = 0x39 := rfl
  rw [Bool.eq_iff_iff, isDigit, Char.isDigit, Bool.and_eq_true, Bool.and_eq_true,
    decide_eq_true_eq, decide_eq_true_eq, decide_eq_true_eq, decide_eq_true_eq, ge_iff_le,
    UInt32.le_iff_toNat_le, UInt32.le_iff_toNat_le, h0, h9]
  exact Iff.rfl

namespace Decimal

def limit : Nat := 4300

def ofNat (n : Nat) : Text := (Nat.toDigits 10 n).map CodePoint.ofChar

def ofInt : Int → Text
  | .ofNat n => ofNat n
  | .negSucc n => lit "-" ++ ofNat (n + 1)

def isOverlong (i : Int) : Bool := limit < (ofNat i.natAbs).length

def ofInt? (i : Int) : Option Text := if isOverlong i then none else some (ofInt i)

def value (ds : Text) : Nat := ds.foldl (fun n c => 10 * n + (c.val - 0x30)) 0

/-- The number a numeral spells, unless it has too many digits; leading zeros count. -/
def value? (ds : Text) : Option Nat := if ds.length ≤ limit then some (value ds) else none

def unsigned (t : Text) : Bool × Text :=
  match t with
  | c :: ds => if c.is '-' then (true, ds) else (false, t)
  | [] => (false, [])

def signed (negative : Bool) (n : Nat) : Int := if negative then -n else n

def int? (t : Text) : Option Int :=
  (value? (unsigned t).2).map (signed (unsigned t).1)

theorem isDigit_of_mem_ofNat {n : Nat} {c : CodePoint} (h : c ∈ ofNat n) : c.isDigit = true := by
  obtain ⟨ch, hch, rfl⟩ := List.mem_map.1 h
  rw [CodePoint.isDigit_ofChar]
  exact Nat.isDigit_of_mem_toDigits (by decide) (by decide) hch

theorem ofNat_ne_nil (n : Nat) : ofNat n ≠ [] := by
  simp [ofNat, Nat.toDigits_ne_nil]

theorem value_ofNat (n : Nat) : value (ofNat n) = n := by
  have h := @Nat.ofDigitChars_toDigits 10 n (by decide) (by decide)
  rw [Nat.ofDigitChars_eq_foldl] at h
  rw [value, ofNat, List.foldl_map]
  exact h

end Decimal

end EnumForms
