import EnumForms.Proofs.FloatNumeral
import EnumForms.Proofs.Shortest
import Mathlib.Data.List.DropRight

/-!
Floats as text. Whatever layout is taken, a finite float is written as a numeral with a point that
spells the digits chosen for it; so it is read as the same float.
-/
namespace EnumForms

namespace Decimal

theorem value_append (u v : Text) : value (u ++ v) = value u * 10 ^ v.length + value v := by
  have hfold (n : Nat) :
      v.foldl (fun n c => 10 * n + (c.val - 0x30)) n = n * 10 ^ v.length + value v := by
    induction v generalizing n with
    | nil => simp [value]
    | cons c v ih =>
      rw [value, List.foldl_cons, List.foldl_cons, ih, ih (10 * 0 + _), List.length_cons,
        Nat.pow_succ]
      ring
  rw [value, List.foldl_append]
  exact hfold _

theorem value_zeros (n : Nat) : value (Binary64.zeros n) = 0 := by
  induction n with
  | zero => rfl
  | succ n ih =>
    have h : value (lit "0" ++ Binary64.zeros n) = 0 := by
      rw [value_append, ih]
      simp [value, lit, CodePoint.ofChar]
    exact h

theorem value_zeros_append (n : Nat) (ds : Text) : value (Binary64.zeros n ++ ds) = value ds := by
  rw [value_append, value_zeros, Nat.zero_mul, Nat.zero_add]

theorem value_append_zeros (ds : Text) (n : Nat) :
    value (ds ++ Binary64.zeros n) = value ds * 10 ^ n := by
  rw [value_append, value_zeros, Nat.add_zero, Binary64.zeros, List.length_replicate]

theorem isDigit_of_mem_zeros {n : Nat} {c : CodePoint} (h : c ∈ Binary64.zeros n) :
    c.isDigit = true := by
  rw [List.eq_of_mem_replicate h]
  decide

namespace Digits

variable {ds : Text}

theorem zero : Digits (lit "0") := digits_ofNat 0

theorem zeros_append (h : Digits ds) (n : Nat) : Digits (Binary64.zeros n ++ ds) := by
  refine ⟨by simp [h.ne_nil], ?_⟩
  exact List.forall_mem_append.2 ⟨fun _ => isDigit_of_mem_zeros, h.isDigit⟩

theorem append_zeros (h : Digits ds) (n : Nat) : Digits (ds ++ Binary64.zeros n) := by
  refine ⟨by simp [h.ne_nil], ?_⟩
  exact List.forall_mem_append.2 ⟨h.isDigit, fun _ => isDigit_of_mem_zeros⟩

theorem take (h : Digits ds) {k : Nat} (hk : 0 < k) : Digits (ds.take k) := by
  refine ⟨?_, fun c hc => h.isDigit c (List.mem_of_mem_take hc)⟩
  rw [ne_eq, List.take_eq_nil_iff, not_or]
  exact ⟨hk.ne', h.ne_nil⟩

theorem drop (h : Digits ds) {k : Nat} (hk : k < ds.length) : Digits (ds.drop k) := by
  refine ⟨?_, fun c hc => h.isDigit c (List.mem_of_mem_drop hc)⟩
  rw [ne_eq, List.drop_eq_nil_iff]
  omega

theorem is_eq_false_of_mem (h : Digits ds) {s : Bool} {c : CodePoint} (hc : c ∈ sign s ++ ds) :
    c.is 'e' = false ∧ c.is '.' = false := by
  rcases List.mem_append.1 hc with hc | hc
  · cases s with
    | true =>
      rw [List.mem_singleton.1 hc]
      decide
    | false => cases hc
  · have := h.isDigit c hc
    simp only [CodePoint.isDigit, CodePoint.is] at *
    grind

end Digits

end Decimal

open Decimal

theorem floatText_append {x : Binary64} {u : Text} {p : Option (Bool × Text)}
    (hu : ∀ c ∈ u, c.is 'e' = false) (h : x.text = u ++ powerText p) :
    floatText x = (if u.any (·.is '.') then u else u ++ lit ".0") ++ powerText p := by
  have hm : ∀ c ∈ u, (!c.is 'e') = true := by
    intro c hc
    rw [hu c hc]
    rfl
  have hp : ∀ c ∈ (powerText p).head?, (!c.is 'e') = false := by
    intro c hc
    rw [head?_powerText hc]
    decide
  obtain ⟨ht, hd⟩ := Lexeme.takeWhile_dropWhile_append hm hp
  simp only [floatText, h, ht, hd]

namespace Binary64

/-- The float is written as a numeral with a point that spells `digits · 10^x` with this sign. -/
def Written (f : Binary64) (s : Bool) (digits : Nat) (x : Int) : Prop :=
  ∃ n : FloatNumeral, floatText f = n.text ∧ n.number = ofScientific s digits x

variable {f : Binary64} {s : Bool} {ds whole fraction : Text} {p : Option (Bool × Text)}

theorem Written.mul_pow_iff {k n : Nat} {x : Int} :
    f.Written s (n * 10 ^ k) (x - k) ↔ f.Written s n x := by
  rw [Written, Written, ofScientific_mul_pow]

theorem written_of_point (hw : Digits whole) (hf : Digits fraction) (hp : ∀ q ∈ p, Digits q.2)
    (h : f.text = sign s ++ (whole ++ (lit "." ++ fraction)) ++ powerText p) :
    f.Written s (value (whole ++ fraction)) (powerValue p - fraction.length) := by
  have he : ∀ c ∈ sign s ++ (whole ++ (lit "." ++ fraction)), c.is 'e' = false := by
    intro c hc
    rw [← List.append_assoc, List.mem_append] at hc
    rcases hc with hc | hc
    · exact (hw.is_eq_false_of_mem hc).1
    rcases List.mem_append.1 hc with hc | hc
    · rw [List.mem_singleton.1 hc]
      decide
    · exact (hf.is_eq_false_of_mem (s := false) hc).1
  have hdot : (sign s ++ (whole ++ (lit "." ++ fraction))).any (·.is '.') = true := by
    refine List.any_eq_true.2 ⟨.ofChar '.', ?_, by decide⟩
    simp [lit]
  refine ⟨⟨s, whole, fraction, p, hw, hf, hp⟩, ?_, rfl⟩
  rw [floatText_append he h, if_pos hdot]
  rfl

theorem written_of_whole (hw : Digits whole) (hp : ∀ q ∈ p, Digits q.2)
    (h : f.text = sign s ++ whole ++ powerText p) : f.Written s (value whole) (powerValue p) := by
  have hdot : ¬ (sign s ++ whole).any (·.is '.') = true := by
    simp only [List.any_eq_true, not_exists, not_and]
    intro c hc
    rw [(hw.is_eq_false_of_mem hc).2]
    exact Bool.false_ne_true
  refine ⟨⟨s, whole, lit "0", p, hw, .zero, hp⟩, ?_, ?_⟩
  · rw [floatText_append (fun c hc => (hw.is_eq_false_of_mem hc).1) h, if_neg hdot]
    simp [FloatNumeral.text, FloatNumeral.mantissa, lit]
  · have hv : value (whole ++ lit "0") = value whole * 10 ^ 1 := value_append_zeros whole 1
    rw [FloatNumeral.number, hv]
    exact ofScientific_mul_pow s _ 1 _

theorem written_positional (hd : Digits ds) {point : Int}
    (h : f.text = sign s ++ positional ds point) : f.Written s (value ds) (point - ds.length) := by
  unfold positional at h
  split at h
  · next hp =>
    have hw := written_of_point (f := f) (s := s) (p := none) .zero
      (hd.zeros_append (-point).toNat) (by simp) (by simp [h, powerText, lit])
    have hv : value (lit "0" ++ (zeros (-point).toNat ++ ds)) = value ds := by
      rw [← value_zeros_append (-point).toNat ds]
      exact value_zeros_append 1 _
    have hx : powerValue none - ((zeros (-point).toNat ++ ds).length : Int) = point - ds.length := by
      simp only [powerValue, List.length_append, zeros, List.length_replicate]
      omega
    rwa [hv, hx] at hw
  · split at h
    · next hp hl =>
      have hw := written_of_point (f := f) (s := s) (p := none)
        (hd.append_zeros (point.toNat - ds.length)) .zero (by simp) (by simp [h, powerText, lit])
      have hv : value (ds ++ zeros (point.toNat - ds.length) ++ lit "0") =
          value ds * 10 ^ (point.toNat - ds.length) * 10 ^ 1 := by
        rw [← value_append_zeros]
        exact value_append_zeros _ 1
      have hx : powerValue none - ((lit "0").length : Int) =
          point - ds.length - (point.toNat - ds.length : Nat) - (1 : Nat) := by
        have hl : (lit "0").length = 1 := rfl
        rw [powerValue, hl]
        omega
      rwa [hv, hx, Written.mul_pow_iff, Written.mul_pow_iff] at hw
    · next hp hl =>
      have hw := written_of_point (f := f) (s := s) (p := none)
        (hd.take (k := point.toNat) (by omega)) (hd.drop (k := point.toNat) (by omega)) (by simp)
        (by simp [h, powerText])
      have hx : powerValue none - ((ds.drop point.toNat).length : Int) = point - ds.length := by
        simp only [powerValue, List.length_drop]
        omega
      rwa [List.take_append_drop, hx] at hw

theorem exists_powerText (power : Int) : ∃ p : Option (Bool × Text), (∀ q ∈ p, Digits q.2) ∧
    powerValue p = power ∧ ∀ ds, withPower ds power =
      (if ds.length ≤ 1 then ds else ds.take 1 ++ lit "." ++ ds.drop 1) ++ powerText p := by
  refine ⟨some (decide (power < 0), zeros (2 - (Decimal.ofNat power.natAbs).length) ++
    Decimal.ofNat power.natAbs), fun q hq => ?_, ?_, fun ds => ?_⟩
  · cases hq
    exact (digits_ofNat power.natAbs).zeros_append _
  · simp only [powerValue, value_zeros_append, value_ofNat, signed, decide_eq_true_eq]
    omega
  · simp [withPower, powerText]

theorem written_withPower (hd : Digits ds) {power : Int}
    (h : f.text = sign s ++ withPower ds power) : f.Written s (value ds) (power + 1 - ds.length) := by
  obtain ⟨p, hp, rfl, ht⟩ := exists_powerText power
  have hpos : 0 < ds.length := List.length_pos_iff.2 hd.ne_nil
  rw [ht] at h
  split at h
  · next hl =>
    have hw := written_of_whole hd hp (by rw [h, List.append_assoc])
    have hx : powerValue p = powerValue p + 1 - ds.length := by omega
    rwa [hx] at hw
  · next hl =>
    have hw := written_of_point (f := f) (s := s) (hd.take (k := 1) (by decide))
      (hd.drop (k := 1) (by omega)) hp (by simp [h])
    have hx : powerValue p - ((ds.drop 1).length : Int) = powerValue p + 1 - ds.length := by
      rw [List.length_drop]
      omega
    rwa [List.take_append_drop, hx] at hw

theorem exists_significant {n : Nat} (hn : n ≠ 0) :
    ∃ z, Decimal.ofNat n = significant n ++ zeros z ∧ Digits (significant n) := by
  have hsplit : significant n ++ (Decimal.ofNat n).rtakeWhile (·.is '0') = Decimal.ofNat n :=
    List.rdropWhile_append_rtakeWhile
  have hzeros : (Decimal.ofNat n).rtakeWhile (·.is '0') =
      zeros ((Decimal.ofNat n).rtakeWhile (·.is '0')).length := by
    apply List.eq_replicate_of_mem
    intro c hc
    exact CodePoint.is_iff.1 (List.mem_rtakeWhile_imp (p := fun c : CodePoint => c.is '0') hc)
  rw [hzeros] at hsplit
  refine ⟨_, hsplit.symm, fun hnil => ?_, fun c hc => ?_⟩
  · have hv := value_ofNat n
    rw [← hsplit, hnil, List.nil_append, value_zeros] at hv
    exact hn hv.symm
  · apply isDigit_of_mem_ofNat (n := n)
    rw [← hsplit]
    exact List.mem_append_left _ hc

theorem text_finite (s : Bool) (m : Nat) (e : Int) :
    (finite s m e).text = sign s ++ if m = 0 then lit "0.0" else
      let d := shortest m e
      let ds := significant d.digits
      let point : Int := (Decimal.ofNat d.digits).length + d.exponent
      if -4 < point ∧ point ≤ 16 then positional ds point else withPower ds (point - 1) := by
  cases s <;> rfl

/-- A number that is not zero is written as the digits chosen for it. -/
theorem written_shortest (s : Bool) {m : Nat} (hm : m ≠ 0) {e : Int}
    (hd : (shortest m e).digits ≠ 0) :
    (finite s m e).Written s (shortest m e).digits (shortest m e).exponent := by
  have ht := text_finite s m e
  simp only [if_neg hm] at ht
  generalize shortest m e = d at ht hd
  obtain ⟨z, hz, hs⟩ := exists_significant hd
  have hl : (Decimal.ofNat d.digits).length = (significant d.digits).length + z := by
    rw [hz, List.length_append, zeros, List.length_replicate]
  have hv : d.digits = value (significant d.digits) * 10 ^ z := by
    rw [← value_append_zeros, ← hz, value_ofNat]
  have hx : d.exponent = z + d.exponent - z := by omega
  rw [hv, hx, Written.mul_pow_iff]
  split at ht
  · have hw := written_positional hs ht
    convert hw using 1
    omega
  · have hw := written_withPower hs ht
    convert hw using 1
    omega

theorem exists_floatNumeral {m : Nat} {e : Int} (hc : (finite s m e).Canonical) :
    ∃ n : FloatNumeral, floatText (finite s m e) = n.text ∧ n.number = finite s m e := by
  by_cases hm : m = 0
  · have ht := text_finite s m e
    have hl : lit "0.0" = positional (lit "0") 1 := by decide
    rw [if_pos hm, hl] at ht
    obtain ⟨n, hn, hv⟩ : (finite s m e).Written s (value (lit "0")) (1 - (lit "0").length) :=
      written_positional .zero ht
    refine ⟨n, hn, hv.trans ?_⟩
    have he : e = leastExponent := by
      obtain ⟨-, -, -, hf | he⟩ := hc
      · rw [hm] at hf
        exact absurd hf (by decide)
      · exact he
    rw [hm, he]
    rfl
  · have hb : (shortest m e).ReadsBack m e := readsBack_shortest hc hm
    have hd : (shortest m e).digits ≠ 0 := by
      intro h0
      rw [Decimal10.ReadsBack, h0] at hb
      cases hb
      exact hm rfl
    obtain ⟨n, ht, hn⟩ := written_shortest s hm hd
    exact ⟨n, ht, hn.trans (ofScientific_sign hb s)⟩

end Binary64

theorem spelled_float {s : Bool} {m : Nat} {e : Int} (hc : (Binary64.finite s m e).Canonical) :
    Spelled (floatText (.finite s m e)) (.float (.finite s m e)) := by
  obtain ⟨n, ht, hn⟩ := Binary64.exists_floatNumeral hc
  rw [ht, ← hn]
  exact n.spelled_text

end EnumForms
