import EnumForms.Text.Utf8

/-!
UTF-8 both ways: a text that has bytes is what its bytes encode.
-/
namespace EnumForms.Utf8

theorem toNat_ofNat {n : Nat} (h : n < 0x100) : (UInt8.ofNat n).toNat = n :=
  UInt8.toNat_ofNat_of_lt' h

theorem continuation?_ofNat (n : Nat) :
    continuation? (UInt8.ofNat (0x80 + n % 64)) = some (n % 64) := by
  have h : (UInt8.ofNat (0x80 + n % 64)).toNat = 0x80 + n % 64 := toNat_ofNat (by omega)
  rw [continuation?, h, if_pos (by omega), Nat.add_sub_cancel_left]

theorem inRange?_eq_some {low n : Nat} {c : CodePoint} (hn : n = c.val) (hl : low ≤ n)
    (hs : c.isSurrogate = false) : inRange? low n = some c := by
  subst hn
  simp [inRange?, CodePoint.ofNat?, c.isLt, hl, hs]

/-! ## The first byte tells how many bytes there are -/

section Bytes

variable {n : Nat} {c : CodePoint} {a b b' b'' : UInt8} {x y z : Nat} (s : List UInt8)

theorem decode?_one (ha : a.toNat = c.val) (h : c.val < 0x80) :
    decode? (a :: s) = (decode? s).map (c :: ·) := by
  rw [decode?.eq_def, Option.map_eq_bind]
  simp only [ha, if_pos h, CodePoint.ofNat?, dif_pos c.isLt]
  rfl

theorem decode?_two (ha : a.toNat = 0xC0 + n) (hn : 2 ≤ n) (hn' : n < 32)
    (hb : continuation? b = some x) (hc : inRange? 0x80 (n * 64 + x) = some c) :
    decode? (a :: b :: s) = (decode? s).map (c :: ·) := by
  rw [decode?.eq_def, Option.map_eq_bind]
  have h1 : ¬ 0xC0 + n < 0x80 := by omega
  have h2 : 0xC2 ≤ 0xC0 + n ∧ 0xC0 + n ≤ 0xDF := by omega
  simp only [ha, if_neg h1, if_pos h2, hb, Nat.add_sub_cancel_left, Option.bind_eq_bind,
    Option.bind_some, hc]
  rfl

theorem decode?_three (ha : a.toNat = 0xE0 + n) (hn : n < 16) (hb : continuation? b = some x)
    (hb' : continuation? b' = some y) (hc : inRange? 0x800 ((n * 64 + x) * 64 + y) = some c) :
    decode? (a :: b :: b' :: s) = (decode? s).map (c :: ·) := by
  rw [decode?.eq_def, Option.map_eq_bind]
  have h1 : ¬ 0xE0 + n < 0x80 := by omega
  have h2 : ¬ (0xC2 ≤ 0xE0 + n ∧ 0xE0 + n ≤ 0xDF) := by omega
  have h3 : 0xE0 ≤ 0xE0 + n ∧ 0xE0 + n ≤ 0xEF := by omega
  simp only [ha, if_neg h1, if_neg h2, if_pos h3, hb, hb', Nat.add_sub_cancel_left,
    Option.bind_eq_bind, Option.bind_some, hc]
  rfl

theorem decode?_four (ha : a.toNat = 0xF0 + n) (hn : n < 5) (hb : continuation? b = some x)
    (hb' : continuation? b' = some y) (hb'' : continuation? b'' = some z)
    (hc : inRange? 0x10000 (((n * 64 + x) * 64 + y) * 64 + z) = some c) :
    decode? (a :: b :: b' :: b'' :: s) = (decode? s).map (c :: ·) := by
  rw [decode?.eq_def, Option.map_eq_bind]
  have h1 : ¬ 0xF0 + n < 0x80 := by omega
  have h2 : ¬ (0xC2 ≤ 0xF0 + n ∧ 0xF0 + n ≤ 0xDF) := by omega
  have h3 : ¬ (0xE0 ≤ 0xF0 + n ∧ 0xF0 + n ≤ 0xEF) := by omega
  have h4 : 0xF0 ≤ 0xF0 + n ∧ 0xF0 + n ≤ 0xF4 := by omega
  simp only [ha, if_neg h1, if_neg h2, if_neg h3, if_pos h4, hb, hb', hb'',
    Nat.add_sub_cancel_left, Option.bind_eq_bind, Option.bind_some, hc]
  rfl

/-- The bytes of a code point are decoded to it, whatever comes after them. -/
theorem decode?_encodePoint {bytes : List UInt8} (h : encodePoint c = some bytes) :
    decode? (bytes ++ s) = (decode? s).map (c :: ·) := by
  have hlt := c.isLt
  simp only [encodePoint] at h
  split at h
  · cases h
  · next hs =>
    rw [Bool.not_eq_true] at hs
    split at h
    · next h1 =>
      cases h
      exact decode?_one s (toNat_ofNat (by omega)) h1
    · split at h
      · cases h
        exact decode?_two s (toNat_ofNat (by omega)) (by omega) (by omega) (continuation?_ofNat _)
          (inRange?_eq_some (by omega) (by omega) hs)
      · split at h
        · cases h
          exact decode?_three s (toNat_ofNat (by omega)) (by omega) (continuation?_ofNat _)
            (continuation?_ofNat _) (inRange?_eq_some (by omega) (by omega) hs)
        · cases h
          exact decode?_four s (toNat_ofNat (by omega)) (by omega) (continuation?_ofNat _)
            (continuation?_ofNat _) (continuation?_ofNat _)
            (inRange?_eq_some (by omega) (by omega) hs)

end Bytes

theorem decode?_encode? {t : Text} {bytes : List UInt8} (h : encode? t = some bytes) :
    decode? bytes = some t := by
  induction t generalizing bytes with
  | nil =>
    cases h
    rfl
  | cons c t ih =>
    obtain ⟨first, hc, h⟩ := Option.bind_eq_some_iff.1 h
    obtain ⟨rest, ht, h⟩ := Option.bind_eq_some_iff.1 h
    cases h
    rw [decode?_encodePoint rest hc, ih ht]
    rfl

end EnumForms.Utf8
