import EnumForms.Binary64.Shortest
import EnumForms.Proofs.Numerals
import EnumForms.Proofs.Rounding

/-!
The decimal digits chosen for a number are read as this number again. Reading is rounding, so it
gives a number in its form, and it does not matter whether zeros stand among the digits or in the
power of ten.
-/
namespace EnumForms

namespace Decimal

theorem lt_pow_length_ofNat (n : Nat) : n < 10 ^ (ofNat n).length := by
  have hpos : 0 < (ofNat n).length := List.length_pos_iff.2 (ofNat_ne_nil n)
  refine (Nat.length_toDigits_le_iff (by decide) hpos).1 ?_
  rw [ofNat, List.length_map]

theorem length_ofNat_mul_pow {n : Nat} (hn : 0 < n) (k : Nat) :
    (ofNat (n * 10 ^ k)).length = (ofNat n).length + k := by
  have hpos : 0 < (ofNat n).length := List.length_pos_iff.2 (ofNat_ne_nil n)
  have hten : 0 < 10 ^ k := Nat.pow_pos (by decide)
  apply Nat.le_antisymm
  · apply length_ofNat_le (by omega)
    rw [Nat.pow_add]
    exact Nat.mul_lt_mul_of_pos_right (lt_pow_length_ofNat n) hten
  · have hlt := lt_pow_length_ofNat (n * 10 ^ k)
    generalize (ofNat (n * 10 ^ k)).length = l at hlt ⊢
    have hk : k < l := by
      refine (Nat.pow_lt_pow_iff_right (by decide : 1 < 10)).1 (Nat.lt_of_le_of_lt ?_ hlt)
      exact Nat.le_mul_of_pos_left _ hn
    have hle : (ofNat n).length ≤ l - k := by
      apply length_ofNat_le (by omega)
      refine Nat.lt_of_mul_lt_mul_right (a := 10 ^ k) ?_
      rwa [← Nat.pow_add, Nat.sub_add_cancel hk.le]
    omega

end Decimal

namespace Binary64

theorem ofRatio_sign {num den m : Nat} {e : Int} (h : ofRatio false num den = finite false m e)
    (s : Bool) : ofRatio s num den = finite s m e := by
  by_cases hn : num = 0
  · simp only [ofRatio, if_pos hn, zero, finite.injEq, true_and] at h ⊢
    exact h
  · simp only [ofRatio, if_neg hn] at h ⊢
    generalize (if nearest _ _ = 2 * fullFraction then _ else _ : Nat × Int) = p at h ⊢
    split at h
    · cases h
    · next hg =>
      rw [if_neg hg]
      cases h
      rfl

theorem ofScientific_sign {n m : Nat} {x e : Int} (h : ofScientific false n x = finite false m e)
    (s : Bool) : ofScientific s n x = finite s m e := by
  simp only [ofScientific] at h ⊢
  split at h
  · next hz =>
    rw [if_pos hz]
    cases h
    rfl
  · next hz =>
    rw [if_neg hz]
    split at h
    · cases h
    · next hi =>
      rw [if_neg hi]
      exact ofRatio_sign h s

theorem canonical_ofScientific (s : Bool) (n : Nat) (x : Int) : (ofScientific s n x).Canonical := by
  simp only [ofScientific]
  split
  · exact canonical_zero s
  · split
    · trivial
    · exact canonical_ofRatio (scale_snd_pos (by decide) (by decide) n (-x)) s

theorem ofScientific_mul_pow (s : Bool) (n k : Nat) (x : Int) :
    ofScientific s (n * 10 ^ k) (x - k) = ofScientific s n x := by
  by_cases hn : n = 0
  · simp [ofScientific, hn]
  · have hk : n * 10 ^ k ≠ 0 := Nat.mul_ne_zero hn (Nat.pow_pos (by decide)).ne'
    have hlen := Decimal.length_ofNat_mul_pow (Nat.pos_of_ne_zero hn) k
    have hsize : ((Decimal.ofNat (n * 10 ^ k)).length : Int) + (x - k) =
        (Decimal.ofNat n).length + x := by
      rw [hlen]
      push_cast
      omega
    have hr : ofRatio s (scale 10 (n * 10 ^ k) 1 (-(x - k))).1
        (scale 10 (n * 10 ^ k) 1 (-(x - k))).2 =
        ofRatio s (scale 10 n 1 (-x)).1 (scale 10 n 1 (-x)).2 := by
      apply ofRatio_congr
      · exact scale_snd_pos (by decide) (by decide) _ _
      · exact scale_snd_pos (by decide) (by decide) _ _
      rw [scale_fst_div_snd (by decide), scale_fst_div_snd (by decide)]
      have hx : -(x - k) = -x + (k : Int) := by omega
      rw [hx, zpow_add₀ (by norm_num), zpow_natCast]
      push_cast
      field_simp
    simp only [ofScientific, hn, hk, hsize, hr]

def Decimal10.ReadsBack (m : Nat) (e : Int) (d : Decimal10) : Prop :=
  ofScientific false d.digits d.exponent = finite false m e

theorem readsBack_of_withDigits? {m n : Nat} {e : Int} {d : Decimal10}
    (h : withDigits? m e n = some d) : d.ReadsBack m e := by
  simp only [withDigits?] at h
  generalize scale 10 (ratio m e).1 (ratio m e).2 _ = p at h
  generalize decimalSize (ratio m e).1 (ratio m e).2 - n = x at h
  split at h
  · next hlow hhigh =>
    cases h
    -- the nearer one of two that both read back
    rcases nearest_eq_or p.1 p.2 with hn | hn
    · rw [Decimal10.ReadsBack, hn]
      exact eq_of_beq hlow
    · rw [Decimal10.ReadsBack, hn]
      exact eq_of_beq hhigh
  · next hlow _ =>
    cases h
    exact eq_of_beq hlow
  · next _ hhigh =>
    cases h
    exact eq_of_beq hhigh
  · cases h

/-- What spells a number exactly is read as it, unless the digits are far out of range. -/
theorem ofScientific_of_canonical {s : Bool} {m n : Nat} {e x : Int}
    (hc : (finite s m e).Canonical) (hn : n ≠ 0) (hv : (n : ℚ) * 10 ^ x = m * 2 ^ e)
    (hlo : -330 ≤ ((Decimal.ofNat n).length : Int) + x)
    (hhi : ((Decimal.ofNat n).length : Int) + x ≤ 310) : ofScientific s n x = finite s m e := by
  have hzero : ¬ (n = 0 ∨ ((Decimal.ofNat n).length : Int) + x < -330) := by omega
  have hinf : ¬ 310 < ((Decimal.ofNat n).length : Int) + x := by omega
  simp only [ofScientific, if_neg hzero, if_neg hinf]
  apply ofRatio_of_canonical hc
  · exact scale_snd_pos (by decide) (by decide) n (-x)
  · rw [scale_fst_div_snd (by decide), ← hv]
    push_cast
    rw [zpow_neg, div_inv_eq_mul, div_one]

variable {m k : Nat}

theorem pow_lt_of_le_greatest (hk : k ≤ 971) : 2 ^ (53 + k) < 10 ^ 310 := by
  have hlast : 2 ^ (53 + 971) < 10 ^ 310 := by decide +kernel
  exact (pow_le_pow_right₀ one_le_two (Nat.add_le_add_left hk 53)).trans_lt hlast

theorem pow_lt_of_le_least (hk : k ≤ 1074) : 2 ^ k < 10 ^ 331 := by
  have hlast : 2 ^ 1074 < 10 ^ 331 := by decide +kernel
  exact (pow_le_pow_right₀ one_le_two hk).trans_lt hlast

theorem length_exact_natCast (hm : m < 2 ^ 53) (hk : k ≤ 971) :
    (Decimal.ofNat (m * 2 ^ k)).length ≤ 310 := by
  apply Decimal.length_ofNat_le (by decide)
  calc m * 2 ^ k < 2 ^ 53 * 2 ^ k := Nat.mul_lt_mul_of_pos_right hm (Nat.pow_pos (by decide))
    _ = 2 ^ (53 + k) := (Nat.pow_add 2 53 k).symm
    _ < 10 ^ 310 := pow_lt_of_le_greatest hk

theorem length_exact_neg (hm : m < 2 ^ 53) : (Decimal.ofNat (m * 5 ^ k)).length ≤ 16 + k := by
  apply Decimal.length_ofNat_le (by omega)
  calc m * 5 ^ k < 10 ^ 16 * 5 ^ k :=
        Nat.mul_lt_mul_of_pos_right (Nat.lt_trans hm (by decide)) (Nat.pow_pos (by decide))
    _ ≤ 10 ^ 16 * 10 ^ k := Nat.mul_le_mul_left _ (Nat.pow_le_pow_left (by decide) k)
    _ = 10 ^ (16 + k) := (Nat.pow_add 10 16 k).symm

theorem lt_length_exact_neg (hm : m ≠ 0) (hk : k ≤ 1074) :
    k ≤ (Decimal.ofNat (m * 5 ^ k)).length + 330 := by
  have hten : 10 ^ k < 10 ^ ((Decimal.ofNat (m * 5 ^ k)).length + 331) := by
    calc 10 ^ k = 2 ^ k * 5 ^ k := by rw [← Nat.mul_pow]
      _ ≤ 2 ^ k * (m * 5 ^ k) :=
        Nat.mul_le_mul_left _ (Nat.le_mul_of_pos_left _ (Nat.pos_of_ne_zero hm))
      _ < 10 ^ 331 * 10 ^ (Decimal.ofNat (m * 5 ^ k)).length :=
        Nat.mul_lt_mul_of_lt_of_lt (pow_lt_of_le_least hk) (Decimal.lt_pow_length_ofNat _)
      _ = 10 ^ ((Decimal.ofNat (m * 5 ^ k)).length + 331) := by rw [Nat.add_comm, Nat.pow_add]
  have := (Nat.pow_lt_pow_iff_right (by decide : 1 < 10)).1 hten
  omega

theorem readsBack_exact {e : Int} (hc : (finite false m e).Canonical) (hm : m ≠ 0) :
    (exact m e).ReadsBack m e := by
  obtain ⟨hbits, hleast, hgreat, -⟩ := id hc
  have hbits : m < 2 ^ 53 := hbits
  simp only [leastExponent, greatestExponent] at hleast hgreat
  unfold exact
  split
  · next he =>
    obtain ⟨k, rfl⟩ := Int.eq_ofNat_of_zero_le he
    have hlen := length_exact_natCast hbits (k := k) (by omega)
    apply ofScientific_of_canonical hc
    · exact Nat.mul_ne_zero hm (Nat.pow_pos (by decide)).ne'
    · simp
    · simp
    · simpa using hlen
  · next he =>
    obtain ⟨k, rfl⟩ : ∃ k : Nat, e = -k := ⟨(-e).toNat, by omega⟩
    have hlo := lt_length_exact_neg hm (k := k) (by omega)
    have hhi := length_exact_neg hbits (k := k)
    have hk : (- -(k : Int)).toNat = k := by omega
    apply ofScientific_of_canonical hc
    · exact Nat.mul_ne_zero hm (Nat.pow_pos (by decide)).ne'
    · have hten : (10 : ℚ) = 2 * 5 := by norm_num
      simp only [hk, Nat.pow_eq]
      push_cast
      rw [zpow_neg, zpow_neg, zpow_natCast, zpow_natCast, hten, mul_pow]
      field_simp
    · simp only [hk, Nat.pow_eq]
      omega
    · simp only [hk, Nat.pow_eq]
      omega

/-- The digits chosen for a number are read as it. -/
theorem readsBack_shortest {e : Int} (hc : (finite false m e).Canonical) (hm : m ≠ 0) :
    (shortest m e).ReadsBack m e := by
  unfold shortest
  cases h : (List.range 17).findSome? fun n => withDigits? m e (n + 1) with
  | none => exact readsBack_exact hc hm
  | some d =>
    obtain ⟨n, -, hn⟩ := List.exists_of_findSome?_eq_some h
    exact readsBack_of_withDigits? hn

end Binary64

end EnumForms
