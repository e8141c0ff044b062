import EnumForms.Binary64.Read
import EnumForms.Proofs.Printing

/-!
Numerals with a point. Such a numeral is one token wherever a term may end, and the number read from
it is the one that its digits and its power of ten spell.
-/
namespace EnumForms

open Decimal

def powerText : Option (Bool × Text) → Text
  | none => []
  | some (negative, ds) => (if negative then lit "e-" else lit "e+") ++ ds

def powerValue : Option (Bool × Text) → Int
  | none => 0
  | some (negative, ds) => signed negative (value ds)

structure FloatNumeral where
  negative : Bool
  whole : Text
  fraction : Text
  power : Option (Bool × Text)
  digits_whole : Digits whole
  digits_fraction : Digits fraction
  digits_power : ∀ p ∈ power, Digits p.2

theorem head?_powerText {p : Option (Bool × Text)} {c : CodePoint}
    (h : c ∈ (powerText p).head?) : c = .ofChar 'e' := by
  rcases p with _ | ⟨negative, ds⟩
  · cases h
  · cases negative
    · cases h
      rfl
    · cases h
      rfl

namespace FloatNumeral

variable (n : FloatNumeral)

def mantissa : Text := sign n.negative ++ (n.whole ++ (lit "." ++ n.fraction))

def text : Text := n.mantissa ++ powerText n.power

def number : Binary64 :=
  .ofScientific n.negative (value (n.whole ++ n.fraction)) (powerValue n.power - n.fraction.length)

/-! ## The number read -/

theorem splitDigits_append {ds rest : Text} (h : Digits ds)
    (hr : ∀ c ∈ rest.head?, c.isDigit = false) : Binary64.splitDigits (ds ++ rest) = (ds, rest) := by
  obtain ⟨ht, hd⟩ := Lexeme.takeWhile_dropWhile_append h.isDigit hr
  rw [Binary64.splitDigits, ht, hd]

theorem exponentAt_powerText : Binary64.exponentAt (powerText n.power) = powerValue n.power := by
  cases h : n.power with
  | none => rfl
  | some p =>
    obtain ⟨negative, ds⟩ := p
    have hd : Binary64.splitDigits (ds ++ []) = (ds, []) :=
      splitDigits_append (n.digits_power _ h) (by simp)
    rw [List.append_nil] at hd
    have he : (CodePoint.ofChar 'e').is 'e' = true := by decide
    have hm : (CodePoint.ofChar '-').is '-' = true := by decide
    have hm' : (CodePoint.ofChar '+').is '-' = false := by decide
    have hp : (CodePoint.ofChar '+').is '+' = true := by decide
    cases negative with
    | true => simp [powerText, Binary64.exponentAt, powerValue, lit, signed, he, hm, hd]
    | false => simp [powerText, Binary64.exponentAt, powerValue, lit, signed, he, hm', hp, hd]

theorem ofLiteral_text : Binary64.ofLiteral n.text = n.number := by
  have hu := n.digits_whole.unsigned n.negative (lit "." ++ (n.fraction ++ powerText n.power))
  have hw : Binary64.splitDigits (n.whole ++ (lit "." ++ (n.fraction ++ powerText n.power))) =
      (n.whole, lit "." ++ (n.fraction ++ powerText n.power)) := by
    apply splitDigits_append n.digits_whole
    intro c hc
    cases hc
    decide
  have hf : Binary64.splitFraction (lit "." ++ (n.fraction ++ powerText n.power)) =
      (n.fraction, powerText n.power) := by
    apply splitDigits_append n.digits_fraction
    intro c hc
    rw [head?_powerText hc]
    decide
  simp only [Binary64.ofLiteral, text, mantissa, List.append_assoc, hu, hw, hf, exponentAt_powerText,
    number]

/-! ## The token -/

theorem exponent_eq_none {rest : Text} (h : Stops rest) : Lexeme.exponent rest = none := by
  refine Option.eq_none_iff_forall_ne_some.2 fun ⟨t, r⟩ he => ?_
  obtain ⟨a, q, b, ha, -⟩ := Lexeme.andThen_eq_some.1 he
  cases rest with
  | nil => cases ha
  | cons c rest =>
    have hc : c = .ofChar 'e' ∨ c = .ofChar 'E' := by
      simp only [Lexeme.either, Option.or_eq_some_iff] at ha
      exact ha.imp Lexeme.single_cons fun ha => Lexeme.single_cons ha.2
    have hn := h.name c rfl
    rcases hc with rfl | rfl
    · exact absurd hn (by decide)
    · exact absurd hn (by decide)

theorem exponent_append {ds rest : Text} (hd : Digits ds) (h : Stops rest) (negative : Bool) :
    Lexeme.exponent (powerText (some (negative, ds)) ++ rest) =
      some (powerText (some (negative, ds)), rest) := by
  have hrun := Lexeme.run_append hd.ne_nil hd.isDigit h.digit
  apply Lexeme.andThen_eq_some.2
  cases negative with
  | true =>
    exact ⟨lit "e", lit "-" ++ (ds ++ rest), lit "-" ++ ds, rfl,
      Lexeme.andThen_eq_some.2 ⟨lit "-", ds ++ rest, ds, rfl, hrun, rfl⟩, rfl⟩
  | false =>
    exact ⟨lit "e", lit "+" ++ (ds ++ rest), lit "+" ++ ds, rfl,
      Lexeme.andThen_eq_some.2 ⟨lit "+", ds ++ rest, ds, rfl, hrun, rfl⟩, rfl⟩

theorem optional_exponent {rest : Text} (h : Stops rest) :
    Lexeme.optional Lexeme.exponent (powerText n.power ++ rest) = some (powerText n.power, rest) := by
  cases hp : n.power with
  | none => simp [powerText, Lexeme.optional, exponent_eq_none h]
  | some p => rw [Lexeme.optional, exponent_append (n.digits_power p hp) h, Option.getD_some]

/-- Nothing that may stand after a term prolongs the numeral. -/
theorem float_append {rest : Text} (h : Stops rest) :
    Lexeme.float (n.text ++ rest) = some (n.text, rest) := by
  have hi : Lexeme.int (sign n.negative ++
      (n.whole ++ (lit "." ++ (n.fraction ++ (powerText n.power ++ rest))))) =
      some (sign n.negative ++ n.whole, lit "." ++ (n.fraction ++ (powerText n.power ++ rest))) := by
    apply Lexeme.int_append n.digits_whole
    intro c hc
    cases hc
    decide
  have hp : Lexeme.single '.' (lit "." ++ (n.fraction ++ (powerText n.power ++ rest))) =
      some (lit ".", n.fraction ++ (powerText n.power ++ rest)) := rfl
  have hf : Lexeme.run CodePoint.isDigit (n.fraction ++ (powerText n.power ++ rest)) =
      some (n.fraction, powerText n.power ++ rest) := by
    apply Lexeme.run_append n.digits_fraction.ne_nil n.digits_fraction.isDigit
    intro c hc
    rw [List.head?_append] at hc
    rcases Option.or_eq_some_iff.1 hc with hc | ⟨-, hc⟩
    · rw [head?_powerText hc]
      decide
    · exact h.digit c hc
  have ht : n.text ++ rest = sign n.negative ++
      (n.whole ++ (lit "." ++ (n.fraction ++ (powerText n.power ++ rest)))) := by
    simp only [text, mantissa, List.append_assoc]
  rw [ht]
  apply Lexeme.andThen_eq_some.2
  refine ⟨_, _, _, hi, Lexeme.andThen_eq_some.2 ⟨_, _, _, hp,
    Lexeme.andThen_eq_some.2 ⟨_, _, _, hf, n.optional_exponent h, rfl⟩, rfl⟩, ?_⟩
  simp only [text, mantissa, List.append_assoc]

theorem spelled_text : Spelled n.text (.float n.number) := by
  intro p
  have hleads {rest : Text} (hr : Stops rest) :
      (Kind.literal .float).Leads (n.text ++ rest) n.text rest := by
    refine ⟨n.float_append hr, fun k hk => ?_⟩
    -- no kind is of a higher priority
    cases k with
    | literal l => cases l <;> simp [Kind.priority] at hk
    | _ => simp [Kind.priority] at hk
  refine ⟨_, _, .token fun rest hr => hleads hr, .literal (l := .float) rfl, ?_⟩
  simp [Node.value, Literal.value, ofLiteral_text]

end FloatNumeral

end EnumForms
