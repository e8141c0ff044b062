import EnumForms.Binary64
import Mathlib.Algebra.Order.Field.Power
import Mathlib.Data.Int.Log
import Mathlib.Data.Rat.Floor
import Mathlib.Tactic.FieldSimp
import Mathlib.Tactic.Linarith
import Mathlib.Tactic.NormNum
import Mathlib.Tactic.Positivity
import Mathlib.Tactic.Ring

/-!
Rounding a quotient. The number nearest to a quotient depends on its value only, it is in the form
in which every number is held once, and a number in this form is rounded to itself.
-/
namespace EnumForms.Binary64

variable {num den num' den' : Nat}

theorem scale_fst_div_snd {b : Nat} (hb : 0 < b) (num den : Nat) (e : Int) :
    ((scale b num den e).1 : ℚ) / (scale b num den e).2 = num / den / (b : ℚ) ^ e := by
  have hb' : (b : ℚ) ≠ 0 := by positivity
  unfold scale
  split
  · next he =>
    have hp : (b : ℚ) ^ e = (b : ℚ) ^ e.toNat := by
      rw [← zpow_natCast, Int.toNat_of_nonneg he]
    simp only [Nat.pow_eq, Nat.cast_mul, Nat.cast_pow, hp]
    rw [div_div]
  · next he =>
    have hp : (b : ℚ) ^ e = ((b : ℚ) ^ (-e).toNat)⁻¹ := by
      rw [← zpow_natCast, Int.toNat_of_nonneg (by omega), zpow_neg, inv_inv]
    simp only [Nat.pow_eq, Nat.cast_mul, Nat.cast_pow, hp]
    rw [div_inv_eq_mul, div_mul_eq_mul_div]

theorem scale_snd_pos {b : Nat} (hb : 0 < b) (hd : 0 < den) (num : Nat) (e : Int) :
    0 < (scale b num den e).2 := by
  unfold scale
  split
  · exact Nat.mul_pos hd (Nat.pow_pos hb)
  · exact hd

theorem scale_mul (b c num den : Nat) (e : Int) :
    scale b (c * num) (c * den) e = (c * (scale b num den e).1, c * (scale b num den e).2) := by
  unfold scale
  split <;> simp only [Nat.mul_assoc]

theorem nearest_mul {c : Nat} (hc : 0 < c) (n d : Nat) : nearest (c * n) (c * d) = nearest n d := by
  have hq : c * n / (c * d) = n / d := Nat.mul_div_mul_left n d hc
  have hr : c * n % (c * d) = c * (n % d) := Nat.mul_mod_mul_left c n d
  have hlt : 2 * (c * (n % d)) < c * d ↔ 2 * (n % d) < d := by
    rw [Nat.mul_left_comm]
    exact Nat.mul_lt_mul_left hc
  have hgt : c * d < 2 * (c * (n % d)) ↔ d < 2 * (n % d) := by
    rw [Nat.mul_left_comm]
    exact Nat.mul_lt_mul_left hc
  simp only [nearest, hq, hr, hlt, hgt]

theorem nearest_eq_or (n d : Nat) : nearest n d = n / d ∨ nearest n d = n / d + 1 := by
  simp only [nearest]
  split
  · exact .inl rfl
  · split
    · exact .inr rfl
    · omega

theorem nearest_mul_self {d : Nat} (hd : 0 < d) (m : Nat) : nearest (m * d) d = m := by
  have hr : m * d % d = 0 := Nat.mul_mod_left m d
  rw [nearest]
  simp only [hr, Nat.mul_zero, hd, if_true]
  exact Nat.mul_div_cancel m hd

theorem log_eq_of_bounds {q : ℚ} {t : Int} (hlo : (2 : ℚ) ^ t ≤ q) (hhi : q < 2 ^ (t + 1)) :
    Int.log 2 q = t := by
  have hq : 0 < q := lt_of_lt_of_le (by positivity) hlo
  have h1 := (Int.zpow_le_iff_le_log (b := 2) (by decide) hq).1 (by exact_mod_cast hlo)
  have h2 := (Int.lt_zpow_iff_log_lt (b := 2) (by decide) hq).1 (by exact_mod_cast hhi)
  omega

theorem log2_bounds {n : Nat} (hn : 0 < n) :
    (2 : ℚ) ^ Nat.log2 n ≤ n ∧ (n : ℚ) < 2 ^ (Nat.log2 n + 1) := by
  constructor
  · exact_mod_cast Nat.log2_self_le hn.ne'
  · exact_mod_cast Nat.lt_log2_self

theorem div_bounds (hn : 0 < num) (hd : 0 < den) :
    (2 : ℚ) ^ ((Nat.log2 num : Int) - Nat.log2 den - 1) ≤ num / den ∧
      (num : ℚ) / den < 2 ^ ((Nat.log2 num : Int) - Nat.log2 den + 1) := by
  obtain ⟨hn1, hn2⟩ := log2_bounds hn
  obtain ⟨hd1, hd2⟩ := log2_bounds hd
  have hdq : (0 : ℚ) < den := by positivity
  constructor
  · rw [le_div_iff₀ hdq]
    calc (2 : ℚ) ^ ((Nat.log2 num : Int) - Nat.log2 den - 1) * den
        ≤ 2 ^ ((Nat.log2 num : Int) - Nat.log2 den - 1) * 2 ^ (Nat.log2 den + 1) := by gcongr
      _ = 2 ^ Nat.log2 num := by
        rw [← zpow_natCast, ← zpow_natCast, ← zpow_add₀ two_ne_zero]
        congr 1
        push_cast
        omega
      _ ≤ num := hn1
  · rw [div_lt_iff₀ hdq]
    calc (num : ℚ) < 2 ^ (Nat.log2 num + 1) := hn2
      _ = 2 ^ ((Nat.log2 num : Int) - Nat.log2 den + 1) * 2 ^ Nat.log2 den := by
        rw [← zpow_natCast, ← zpow_natCast, ← zpow_add₀ two_ne_zero]
        congr 1
        push_cast
        omega
      _ ≤ 2 ^ ((Nat.log2 num : Int) - Nat.log2 den + 1) * den := by gcongr

theorem exponentFor_eq (hn : 0 < num) (hd : 0 < den) :
    exponentFor num den = max leastExponent (Int.log 2 ((num : ℚ) / den) - 52) := by
  obtain ⟨hlo, hhi⟩ := div_bounds hn hd
  simp only [exponentFor]
  generalize (Nat.log2 num : Int) - Nat.log2 den = l at hlo hhi ⊢
  have hs := scale_fst_div_snd (b := 2) (by decide) num den l
  have hpos := scale_snd_pos (b := 2) (by decide) hd num l
  have hle : (scale 2 num den l).2 ≤ (scale 2 num den l).1 ↔ (2 : ℚ) ^ l ≤ num / den := by
    have hp : (0 : ℚ) < 2 ^ l := by positivity
    have hposq : (0 : ℚ) < (scale 2 num den l).2 := by exact_mod_cast hpos
    rw [← one_le_div₀ hp, ← Nat.cast_le (α := ℚ), ← one_le_div₀ hposq, hs]
    norm_num
  split
  · next h =>
    rw [log_eq_of_bounds (hle.1 h) hhi]
  · next h =>
    have hlt : (num : ℚ) / den < 2 ^ l := not_le.1 fun hc => h (hle.2 hc)
    rw [log_eq_of_bounds hlo (by simpa using hlt)]
    congr 1
    omega

/-- Rounding depends on the value of the quotient only. -/
theorem ofRatio_mul {c : Nat} (hc : 0 < c) (hd : 0 < den) (s : Bool) :
    ofRatio s (c * num) (c * den) = ofRatio s num den := by
  by_cases hn : num = 0
  · simp [ofRatio, hn]
  · have hn' : 0 < num := Nat.pos_of_ne_zero hn
    have hcn : c * num ≠ 0 := Nat.mul_ne_zero hc.ne' hn
    have he : exponentFor (c * num) (c * den) = exponentFor num den := by
      rw [exponentFor_eq (Nat.pos_of_ne_zero hcn) (Nat.mul_pos hc hd), exponentFor_eq hn' hd]
      push_cast
      rw [mul_div_mul_left _ _ (by positivity : (c : ℚ) ≠ 0)]
    simp only [ofRatio, if_neg hn, if_neg hcn, he, scale_mul, nearest_mul hc]

theorem ofRatio_congr (hd : 0 < den) (hd' : 0 < den') (h : (num : ℚ) / den = num' / den')
    (s : Bool) : ofRatio s num den = ofRatio s num' den' := by
  have hx : num * den' = num' * den := by
    rw [div_eq_div_iff (by positivity) (by positivity)] at h
    exact_mod_cast h
  calc ofRatio s num den = ofRatio s (den' * num) (den' * den) := (ofRatio_mul hd' hd s).symm
    _ = ofRatio s (den * num') (den * den') := by
      rw [Nat.mul_comm den' num, hx, Nat.mul_comm num' den, Nat.mul_comm den' den]
    _ = ofRatio s num' den' := ofRatio_mul hd hd' s

/-- The form in which a number is held: no more than 53 bits, and no fewer unless the exponent is
the least one. -/
def Canonical : Binary64 → Prop
  | .nan _ => False
  | .infinite _ => True
  | .finite _ m e => m < 2 * fullFraction ∧ leastExponent ≤ e ∧ e ≤ greatestExponent ∧
      (fullFraction ≤ m ∨ e = leastExponent)

theorem canonical_zero (s : Bool) : (zero s).Canonical :=
  ⟨by decide, Int.le_refl _, by decide, .inr rfl⟩

theorem scaled_bounds (hn : 0 < num) (hd : 0 < den) :
    let e := exponentFor num den
    let p := scale 2 num den e
    p.1 / p.2 < 2 * fullFraction ∧ (fullFraction ≤ p.1 / p.2 ∨ e = leastExponent) := by
  intro e p
  have hq : (0 : ℚ) < num / den := by positivity
  have he : e = max leastExponent (Int.log 2 ((num : ℚ) / den) - 52) := exponentFor_eq hn hd
  have hp : (p.1 : ℚ) / p.2 = num / den / 2 ^ e := by
    exact_mod_cast scale_fst_div_snd (b := 2) (by decide) num den e
  have hpos : 0 < p.2 := scale_snd_pos (by decide) hd num e
  have hposq : (0 : ℚ) < p.2 := by exact_mod_cast hpos
  have hpow : (0 : ℚ) < 2 ^ e := by positivity
  constructor
  · have hlt : (num : ℚ) / den < 2 ^ (e + 53) := by
      refine lt_of_lt_of_le (Int.lt_zpow_succ_log_self (b := 2) (by decide) _) ?_
      exact_mod_cast zpow_le_zpow_right₀ (by norm_num : (1 : ℚ) ≤ 2) (by omega)
    rw [Nat.div_lt_iff_lt_mul hpos]
    have hq' : (p.1 : ℚ) / p.2 < 2 ^ 53 := by
      rw [hp, div_lt_iff₀ hpow, ← zpow_natCast, ← zpow_add₀ two_ne_zero, add_comm]
      exact_mod_cast hlt
    rw [div_lt_iff₀ hposq] at hq'
    have hf : 2 * fullFraction = 2 ^ 53 := by decide
    rw [hf]
    exact_mod_cast hq'
  · by_cases hleast : e = leastExponent
    · exact .inr hleast
    · have hle : (2 : ℚ) ^ (e + 52) ≤ num / den := by
        have hl : e + 52 = Int.log 2 ((num : ℚ) / den) := by omega
        rw [hl]
        exact_mod_cast Int.zpow_log_le_self (b := 2) (by decide) hq
      rw [Nat.le_div_iff_mul_le hpos]
      have hq' : (2 : ℚ) ^ 52 ≤ (p.1 : ℚ) / p.2 := by
        rw [hp, le_div_iff₀ hpow, ← zpow_natCast, ← zpow_add₀ two_ne_zero, add_comm]
        exact_mod_cast hle
      rw [le_div_iff₀ hposq] at hq'
      have hf : fullFraction = 2 ^ 52 := by decide
      rw [hf]
      exact .inl (by exact_mod_cast hq')

theorem canonical_ofRatio (hd : 0 < den) (s : Bool) : (ofRatio s num den).Canonical := by
  by_cases hn : num = 0
  · rw [ofRatio, if_pos hn]
    exact canonical_zero s
  · obtain ⟨hlt, hge⟩ := scaled_bounds (Nat.pos_of_ne_zero hn) hd
    have hnear := nearest_eq_or (scale 2 num den (exponentFor num den)).1
      (scale 2 num den (exponentFor num den)).2
    have hleast : leastExponent ≤ exponentFor num den := le_max_left _ _
    simp only [ofRatio, if_neg hn]
    generalize (scale 2 num den (exponentFor num den)).1 /
      (scale 2 num den (exponentFor num den)).2 = w at hlt hge hnear
    generalize nearest (scale 2 num den (exponentFor num den)).1
      (scale 2 num den (exponentFor num den)).2 = m at hnear ⊢
    generalize exponentFor num den = e at hge hleast ⊢
    -- a carry out of the 53 bits leaves the full fraction with the next exponent
    by_cases hm : m = 2 * fullFraction
    · simp only [if_pos hm]
      split
      · trivial
      · exact ⟨by decide, by omega, by omega, .inl (Nat.le_refl _)⟩
    · simp only [if_neg hm]
      split
      · trivial
      · exact ⟨by omega, hleast, by omega, by omega⟩

/-- A number in its form is rounded to itself. -/
theorem ofRatio_of_canonical {s : Bool} {m : Nat} {e : Int} (hc : (finite s m e).Canonical)
    (hd : 0 < den) (h : (num : ℚ) / den = m * 2 ^ e) : ofRatio s num den = finite s m e := by
  obtain ⟨hlt, hleast, hgreat, hfull⟩ := hc
  have hpow : (0 : ℚ) < 2 ^ e := by positivity
  have hdq : (0 : ℚ) < den := by exact_mod_cast hd
  by_cases hm : m = 0
  · have hn : num = 0 := by
      rw [hm, Nat.cast_zero, zero_mul, div_eq_zero_iff] at h
      exact_mod_cast h.resolve_right hdq.ne'
    have he : e = leastExponent := by
      rcases hfull with hf | hf
      · rw [hm] at hf
        exact absurd hf (by decide)
      · exact hf
    rw [ofRatio, if_pos hn, hm, he, zero]
  · have hmq : (0 : ℚ) < m := by exact_mod_cast Nat.pos_of_ne_zero hm
    have hq : (0 : ℚ) < num / den := by rw [h]; positivity
    have hn : num ≠ 0 := by
      rintro rfl
      simp at hq
    have hhi : (num : ℚ) / den < 2 ^ (e + 53) := by
      have hf : (m : ℚ) < 2 ^ (53 : ℕ) := by exact_mod_cast hlt
      rw [h, add_comm, zpow_add₀ two_ne_zero]
      exact mul_lt_mul_of_pos_right (by exact_mod_cast hf) hpow
    have hlog := (Int.lt_zpow_iff_log_lt (b := 2) (by decide) hq).1 (by exact_mod_cast hhi)
    have he : exponentFor num den = e := by
      rw [exponentFor_eq (Nat.pos_of_ne_zero hn) hd]
      rcases hfull with hf | hf
      · have hlo : (2 : ℚ) ^ (e + 52) ≤ num / den := by
          have hf' : (2 : ℚ) ^ (52 : ℕ) ≤ m := by exact_mod_cast hf
          rw [h, add_comm, zpow_add₀ two_ne_zero]
          exact mul_le_mul_of_nonneg_right (by exact_mod_cast hf') hpow.le
        have := (Int.zpow_le_iff_le_log (b := 2) (by decide) hq).1 (by exact_mod_cast hlo)
        omega
      · omega
    have hpos := scale_snd_pos (b := 2) (by decide) hd num e
    have hexact : (scale 2 num den e).1 = m * (scale 2 num den e).2 := by
      have hs := scale_fst_div_snd (b := 2) (by decide) num den e
      rw [Nat.cast_ofNat, h, mul_div_cancel_right₀ _ hpow.ne', div_eq_iff (by positivity)] at hs
      exact_mod_cast hs
    have hcarry : m ≠ 2 * fullFraction := by omega
    have hbound : ¬ greatestExponent < e := by omega
    simp only [ofRatio, if_neg hn, he, hexact, nearest_mul_self hpos, if_neg hcarry, if_neg hbound]

end EnumForms.Binary64
