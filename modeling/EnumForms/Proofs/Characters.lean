import EnumForms.Proofs.Escapes
import Mathlib.Algebra.Group.Nat.Defs
import Mathlib.Data.List.TakeWhile

/-!
A dollar sign and a code point, which may be written as an escape, are one code point. Only an
escape in base sixteen between braces can name a number past the last code point.
-/
namespace EnumForms

namespace CodePoint

theorem digit_lt_of_isHex {c : CodePoint} (h : c.isHex = true) : c.digit?.getD 0 < 16 := by
  cases hd : c.digit? with
  | none => simp [isHex, hd] at h
  | some n => simpa [isHex, hd] using h

theorem digit_lt_of_isOctal {c : CodePoint} (h : c.isOctal = true) : c.digit?.getD 0 < 8 := by
  simp only [isOctal, Bool.and_eq_true, decide_eq_true_eq] at h
  have hd : c.isDigit = true := by
    simp only [isDigit, Bool.and_eq_true, decide_eq_true_eq]
    omega
  simp only [digit?, hd, if_true, Option.getD_some]
  omega

theorem ofNat?_eq_none_iff {n : Nat} : ofNat? n = none ↔ 0x10FFFF < n := by
  by_cases h : n < 0x110000
  · simp only [ofNat?, dif_pos h, reduceCtorEq, false_iff]
    omega
  · simp only [ofNat?, dif_neg h, true_iff]
    omega

theorem is_of_isOctal {c : CodePoint} (h : c.isOctal = true) :
    c.is '^' = false ∧ c.is 'x' = false := by
  simp only [isOctal, is] at *
  grind

end CodePoint

namespace Escape

variable {s r : Text} {e : Escape}

theorem number_lt {b : Nat} {ds : Text} (h : ∀ c ∈ ds, c.digit?.getD 0 < b) :
    number b ds < b ^ ds.length := by
  have hn (n : Nat) :
      ds.foldl (fun n c => b * n + c.digit?.getD 0) n < (n + 1) * b ^ ds.length := by
    induction ds generalizing n with
    | nil => simp
    | cons c ds ih =>
      rw [List.forall_mem_cons] at h
      have hc : b * n + c.digit?.getD 0 + 1 ≤ (n + 1) * b := by
        rw [Nat.add_mul, Nat.mul_comm n b]
        omega
      calc
        (c :: ds).foldl (fun n c => b * n + c.digit?.getD 0) n
            < (b * n + c.digit?.getD 0 + 1) * b ^ ds.length := ih h.2 _
        _ ≤ (n + 1) * b * b ^ ds.length := Nat.mul_le_mul_right _ hc
        _ = (n + 1) * b ^ (c :: ds).length := by
          rw [List.length_cons, Nat.pow_succ', Nat.mul_assoc]
  simpa [number] using hn 0

inductive WellFormed : Escape → Prop where
  | control (c : CodePoint) : WellFormed (.control c)
  | braced {ds : Text} : ds ≠ [] → (∀ d ∈ ds, d.isHex = true) → WellFormed (.braced ds)
  | pair {a b : CodePoint} : a.isHex = true → b.isHex = true → WellFormed (.pair a b)
  | octal {ds : Text} : ds ≠ [] → ds.length ≤ 3 → (∀ d ∈ ds, d.isOctal = true) →
      WellFormed (.octal ds)
  | plain {c : CodePoint} : c.isOctal = false → WellFormed (.plain c)

theorem isHex_of_splitBraced {ds : Text} (h : splitBraced s = some (ds, r)) :
    ds ≠ [] ∧ ∀ d ∈ ds, d.isHex = true := by
  unfold splitBraced at h
  split at h
  · next d ds' c q ht hd =>
    split at h
    · cases h
      refine ⟨by simp, fun x hx => ?_⟩
      rw [← ht] at hx
      exact List.mem_takeWhile_imp hx
    · cases h
  · cases h

theorem splitHex_eq_some (h : splitHex s = some (e, r)) :
    (∃ ds, e = .braced ds ∧ ds ≠ [] ∧ ∀ d ∈ ds, d.isHex = true) ∨
      ∃ a b, e = .pair a b ∧ a.isHex = true ∧ b.isHex = true := by
  unfold splitHex at h
  split at h
  · split at h
    · obtain ⟨⟨ds, q⟩, hb, he⟩ := Option.map_eq_some_iff.1 h
      cases he
      exact .inl ⟨ds, rfl, isHex_of_splitBraced hb⟩
    · split at h
      · next b q =>
        split at h
        · next hh =>
          cases h
          rw [Bool.and_eq_true] at hh
          exact .inr ⟨_, b, rfl, hh⟩
        · cases h
      · cases h
  · cases h

theorem wellFormed_of_splitOctal {ds : Text} (h : splitOctal s = some (ds, r)) :
    (Escape.octal ds).WellFormed := by
  unfold splitOctal at h
  split at h
  · split at h
    · cases h
    · split at h
      · cases h
        exact .octal (by simp) (by simp) (by simp_all)
      · split at h <;> cases h <;> exact .octal (by simp) (by simp) (by simp_all)
  · split at h
    · cases h
    · split at h <;> cases h <;> exact .octal (by simp) (by simp) (by simp_all)
  · split at h <;> cases h
    exact .octal (by simp) (by simp) (by simp_all)
  · cases h

theorem isOctal_of_splitOctal_eq_none {c : CodePoint} (h : splitOctal (c :: s) = none) :
    c.isOctal = false := by
  rw [Bool.eq_false_iff]
  intro hc
  unfold splitOctal at h
  grind

theorem wellFormed_of_split (h : split s = some (e, r)) : e.WellFormed := by
  cases s with
  | nil => cases h
  | cons c s =>
    simp only [split] at h
    split at h
    · next hc =>
      rw [CodePoint.is_iff] at hc
      subst hc
      split at h <;> cases h
      · exact .control _
      · exact .plain (by decide)
    · split at h
      · next hx =>
        rw [CodePoint.is_iff] at hx
        subst hx
        cases hs : splitHex s with
        | none =>
          rw [hs] at h
          cases h
          exact .plain (by decide)
        | some p =>
          rw [hs] at h
          cases h
          obtain ⟨ds, rfl, hn, hd⟩ | ⟨a, b, rfl, ha, hb⟩ := splitHex_eq_some hs
          · exact .braced hn hd
          · exact .pair ha hb
      · split at h
        · next ho =>
          cases h
          exact wellFormed_of_splitOctal ho
        · next ho =>
          cases h
          exact .plain (isOctal_of_splitOctal_eq_none ho)

theorem eq_nil_of_split (h : split s = none) : s = [] := by
  cases s with
  | nil => rfl
  | cons c s =>
    simp only [split] at h
    grind

theorem split_pair {a b : CodePoint} (ha : a.isHex = true) (hb : b.isHex = true) (rest : Text) :
    split (.ofChar 'x' :: a :: b :: rest) = some (.pair a b, rest) := by
  have hx : (CodePoint.ofChar 'x').is '^' = false := by decide
  have hi : (CodePoint.ofChar 'x').is 'x' = true := by decide
  have hne : a.is '\x7b' = false := by
    rw [Bool.eq_false_iff]
    intro h
    rw [CodePoint.is_iff.1 h] at ha
    exact absurd ha (by decide)
  simp [split, hx, hi, splitHex, hne, ha, hb]

theorem split_octal_iff {ds rest : Text} (hn : ds ≠ []) (hl : ds.length ≤ 3)
    (ho : ∀ d ∈ ds, d.isOctal = true) :
    split (ds ++ rest) = some (.octal ds, rest) ↔
      ds.length = 3 ∨ ∀ c ∈ rest.head?, c.isOctal = false := by
  match ds with
  | [] => exact absurd rfl hn
  | [a] | [a, b] =>
    obtain ⟨hc, hx⟩ := CodePoint.is_of_isOctal (ho a (by simp))
    simp only [List.cons_append, List.nil_append, split, hc, hx]
    rcases rest with _ | ⟨c, _ | ⟨d, rest⟩⟩ <;> simp_all [splitOctal] <;> grind
  | [a, b, c] =>
    obtain ⟨hc, hx⟩ := CodePoint.is_of_isOctal (ho a (by simp))
    simp_all [split, splitOctal]

/-- An escape that stands alone is found whole. -/
theorem WellFormed.split_spelling (h : e.WellFormed) : split e.spelling = some (e, []) := by
  cases h with
  | control c => rfl
  | braced hn hd => simpa [spelling] using split_braced hn hd []
  | pair ha hb => exact split_pair ha hb []
  | @octal ds hn hl ho =>
    have hs := (@split_octal_iff ds [] hn hl ho).2 (.inr (by simp))
    rwa [List.append_nil] at hs
  | @plain c ho =>
    have hs : splitOctal [c] = none := splitOctal_eq_none ho []
    simp [spelling, split, splitHex, hs]

theorem WellFormed.value?_eq_none_iff (h : e.WellFormed) :
    e.value? = none ↔ ∃ ds, e = .braced ds ∧ 0x10FFFF < number 16 ds := by
  cases h with
  | control c =>
    have := Nat.mod_lt c.val (show 0 < 32 by decide)
    simp only [value?, CodePoint.ofNat?_eq_none_iff, reduceCtorEq, false_and, exists_false,
      iff_false]
    omega
  | braced hn hd => simp [value?, CodePoint.ofNat?_eq_none_iff]
  | @pair a b ha hb =>
    have hd : ∀ c ∈ [a, b], c.digit?.getD 0 < 16 := by
      simp [CodePoint.digit_lt_of_isHex ha, CodePoint.digit_lt_of_isHex hb]
    have := number_lt hd
    simp only [List.length_cons, List.length_nil] at this
    simp only [value?, CodePoint.ofNat?_eq_none_iff, reduceCtorEq, false_and, exists_false,
      iff_false]
    omega
  | @octal ds hn hl ho =>
    have := number_lt fun c hc => CodePoint.digit_lt_of_isOctal (ho c hc)
    have := Nat.pow_le_pow_right (show 0 < 8 by decide) hl
    simp only [value?, CodePoint.ofNat?_eq_none_iff, reduceCtorEq, false_and, exists_false,
      iff_false]
    omega
  | plain => simp [value?]

theorem decode?_singleton (c : CodePoint) : decode? [c] = some [c] := by
  by_cases h : c = .backslash
  · subst h
    rw [decode?, if_pos rfl]
    rfl
  · rw [decode?_cons h, decode?]
    rfl

theorem WellFormed.decode?_spelling (h : e.WellFormed) :
    decode? (.backslash :: e.spelling) = e.value?.map fun c => [c] := by
  rw [decode?_escape h.split_spelling, decode?]
  cases e.value? <;> rfl

end Escape

open Escape

namespace Lexeme

variable {s t r : Text}

theorem char_eq_some (h : char s = some (t, r)) :
    (∃ c, t = [.ofChar '$', c] ∧ (c = .backslash → r = [])) ∨
      ∃ e : Escape, split (e.spelling ++ r) = some (e, r) ∧
        t = .ofChar '$' :: .backslash :: e.spelling := by
  unfold char at h
  split at h
  · next d c s =>
    split at h
    · next hd =>
      obtain rfl := CodePoint.is_iff.1 hd
      split at h
      · next hc =>
        subst hc
        split at h
        · next e q he =>
          cases h
          refine .inr ⟨e, ?_, rfl⟩
          rw [← split_eq he]
          exact he
        · next hn =>
          cases h
          exact .inl ⟨_, rfl, fun _ => eq_nil_of_split hn⟩
      · next hc =>
        cases h
        exact .inl ⟨c, rfl, fun h => absurd h hc⟩
    · cases h
  · cases h

/-- A character token stands for one code point, or its escape is out of range. -/
theorem decode?_char (h : char s = some (t, r)) :
    (∃ c, decode? t.tail = some [c]) ∨ decode? t.tail = none := by
  obtain ⟨c, rfl, -⟩ | ⟨e, he, rfl⟩ := char_eq_some h
  · exact .inl ⟨c, decode?_singleton c⟩
  · rw [List.tail_cons, (wellFormed_of_split he).decode?_spelling]
    cases e.value? with
    | none => exact .inr rfl
    | some c => exact .inl ⟨c, rfl⟩

theorem decode?_char_eq_none_iff (h : char s = some (t, r)) :
    decode? t.tail = none ↔ ∃ ds, ds ≠ [] ∧ (∀ d ∈ ds, d.isHex = true) ∧
      t = lit "$\\x\x7b" ++ ds ++ lit "\x7d" ∧ 0x10FFFF < number 16 ds := by
  constructor
  · intro hn
    obtain ⟨c, rfl, -⟩ | ⟨e, hs, rfl⟩ := char_eq_some h
    · rw [List.tail_cons, decode?_singleton] at hn
      cases hn
    · have he := wellFormed_of_split hs
      rw [List.tail_cons, he.decode?_spelling, Option.map_eq_none_iff,
        he.value?_eq_none_iff] at hn
      obtain ⟨ds, rfl, hlt⟩ := hn
      cases he with
      | braced hne hd => exact ⟨ds, hne, hd, rfl, hlt⟩
  · rintro ⟨ds, hne, hd, rfl, hlt⟩
    have he : (Escape.braced ds).WellFormed := .braced hne hd
    have hv := he.value?_eq_none_iff.2 ⟨ds, rfl, hlt⟩
    have ht : (lit "$\\x\x7b" ++ ds ++ lit "\x7d").tail =
        .backslash :: (Escape.braced ds).spelling := rfl
    rw [ht, he.decode?_spelling, hv]
    rfl

end Lexeme

end EnumForms
