import EnumForms.Decimal
import EnumForms.Proofs.Scan
import Mathlib.Data.List.TakeWhile
import Mathlib.Data.Nat.Digits.Defs

/-!
Integers in decimal: the numeral of an integer spells it, and it is one token wherever what follows
cannot prolong it.
-/
namespace EnumForms

namespace Decimal

structure Digits (ds : Text) : Prop where
  ne_nil : ds ≠ []
  isDigit : ∀ c ∈ ds, c.isDigit = true

theorem digits_ofNat (n : Nat) : Digits (ofNat n) := ⟨ofNat_ne_nil n, fun _ => isDigit_of_mem_ofNat⟩

def sign (negative : Bool) : Text := if negative then lit "-" else []

theorem Digits.unsigned {ds : Text} (h : Digits ds) (negative : Bool) (rest : Text) :
    unsigned (sign negative ++ (ds ++ rest)) = (negative, ds ++ rest) := by
  cases negative with
  | true => rfl
  | false =>
    cases ds with
    | nil => exact absurd rfl h.ne_nil
    | cons c ds =>
      have hc : c.isDigit = true := h.isDigit c (by simp)
      have hm : c.is '-' = false := by
        simp only [CodePoint.isDigit, CodePoint.is] at *
        grind
      simp [sign, Decimal.unsigned, hm]

theorem ofInt_eq (i : Int) : ofInt i = sign (i < 0) ++ ofNat i.natAbs := by
  cases i with
  | ofNat n => rfl
  | negSucc n => simp [ofInt, sign]

theorem length_ofNat_le {n k : Nat} (hk : 0 < k) (h : n < 10 ^ k) : (ofNat n).length ≤ k := by
  rw [ofNat, List.length_map]
  exact (Nat.length_toDigits_le_iff (by decide) hk).2 h

theorem isOverlong_eq_false {i : Int} (h : i.natAbs < 10 ^ limit) : isOverlong i = false := by
  have := length_ofNat_le (by decide) h
  simp only [isOverlong, decide_eq_false_iff_not]
  omega

theorem value?_ofNat {n : Nat} (h : n < 10 ^ limit) : value? (ofNat n) = some n := by
  rw [value?, if_pos (length_ofNat_le (by decide) h), value_ofNat]

theorem int?_ofInt {i : Int} (h : i.natAbs < 10 ^ limit) : int? (ofInt i) = some i := by
  have hu := (digits_ofNat i.natAbs).unsigned (i < 0) []
  rw [List.append_nil] at hu
  simp only [int?, ofInt_eq, hu, value?_ofNat h, Option.map_some, signed, decide_eq_true_eq,
    Option.some.injEq]
  omega

end Decimal

namespace Lexeme

theorem run_append {p : CodePoint → Bool} {u rest : Text} (hn : u ≠ []) (hu : ∀ c ∈ u, p c = true)
    (hr : ∀ c ∈ rest.head?, p c = false) : run p (u ++ rest) = some (u, rest) := by
  obtain ⟨ht, hd⟩ := takeWhile_dropWhile_append hu hr
  rw [run, ht, hd, if_neg hn]

theorem takeWhile_of_run {p : CodePoint → Bool} {s t r : Text} (h : run p s = some (t, r)) :
    s.takeWhile p = t := by
  unfold run at h
  split at h <;> cases h
  rfl

theorem of_mem_run {p : CodePoint → Bool} {s t r : Text} (h : run p s = some (t, r))
    {c : CodePoint} (hc : c ∈ t) : p c = true := by
  rw [← takeWhile_of_run h] at hc
  exact List.mem_takeWhile_imp hc

theorem run_eq_none {p : CodePoint → Bool} {s : Text} (h : ∀ c ∈ s.head?, p c = false) :
    run p s = none := by
  cases s with
  | nil => rfl
  | cons c s => simp [run, h c rfl]

theorem andThen_of_none {f g : Text → Option (Text × Text)} {s a q : Text} (hf : f s = some (a, q))
    (hg : g q = none) : andThen f g s = none := by
  simp [andThen, hf, hg]

theorem int_append {ds rest : Text} (h : Decimal.Digits ds)
    (hr : ∀ c ∈ rest.head?, c.isDigit = false) (negative : Bool) :
    int (Decimal.sign negative ++ (ds ++ rest)) = some (Decimal.sign negative ++ ds, rest) := by
  have hrun := run_append h.ne_nil h.isDigit hr
  cases negative with
  | true =>
    have hs : single '-' (lit "-" ++ (ds ++ rest)) = some (lit "-", ds ++ rest) := rfl
    simp [int, andThen, optional, Decimal.sign, hs, hrun]
  | false =>
    have hs : single '-' (ds ++ rest) = none := by
      cases ds with
      | nil => exact absurd rfl h.ne_nil
      | cons c ds =>
        have hu := h.unsigned false rest
        simp only [Decimal.sign, Bool.false_eq_true, if_false, List.nil_append, List.cons_append,
          Decimal.unsigned] at hu
        split at hu
        · cases hu
        · next hc => simp [single, hc]
    simp [int, andThen, optional, Decimal.sign, hs, hrun]

end Lexeme

end EnumForms
