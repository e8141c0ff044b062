import EnumForms.Term

/-!
Terms of the same kinds. Equality does not tell `1`, `1.0` and the truth value apart. Equal terms
whose kinds agree in every part can differ only in the signs of their zeros, and terms that differ
only so are equal, unless they hold a float that is not a number.
-/
namespace EnumForms

def Binary64.plain : Binary64 → Binary64
  | .finite s m e => if m = 0 then zero false else .finite s m e
  | x => x

namespace Binary64

theorem plain_eq_of_equal {x y : Binary64} (h : x.equal y = true) : x.plain = y.plain := by
  cases x <;> cases y <;> simp only [equal, Bool.false_eq_true, Bool.or_eq_true, Bool.and_eq_true,
    beq_iff_eq] at h
  case infinite.infinite => rw [h]
  case finite.finite =>
    rcases h with ⟨rfl, rfl⟩ | ⟨⟨rfl, rfl⟩, rfl⟩
    · rfl
    · rfl

theorem equal_of_plain_eq {x y : Binary64} (h : x.plain = y.plain) (hy : ∀ tag, y ≠ .nan tag) :
    x.equal y = true := by
  cases y with
  | nan tag => exact absurd rfl (hy tag)
  | infinite s =>
    cases x with
    | nan tag => cases h
    | infinite s' => cases h; exact beq_self_eq_true s
    | finite s' m e => simp only [plain] at h; split at h <;> cases h
  | finite s m e =>
    cases x with
    | nan | infinite => simp only [plain] at h; split at h <;> cases h
    | finite s' m' e' =>
      by_cases hm : m = 0 <;> by_cases hm' : m' = 0 <;> simp_all [plain, equal, zero]

end Binary64

namespace Term

mutual

def hasNan : Term → Bool
  | .float (.nan _) => true
  | .tuple ts | .list ts => anyNan ts
  | _ => false

def anyNan : List Term → Bool
  | [] => false
  | t :: ts => t.hasNan || anyNan ts

end

mutual

/-- A term with the kinds of all its parts: whatever is no tuple and no list is the least of its
kind. -/
def kinds : Term → Term
  | .atom _ => .atom []
  | .int _ => .int 0
  | .float _ => .float (.zero false)
  | .str _ => .str []
  | .tuple ts => .tuple (kindsOf ts)
  | .list ts => .list (kindsOf ts)
  | .bool _ => .bool false
  | .nothing => .nothing

def kindsOf : List Term → List Term
  | [] => []
  | t :: ts => t.kinds :: kindsOf ts

end

mutual

def plain : Term → Term
  | .float x => .float x.plain
  | .tuple ts => .tuple (plainAll ts)
  | .list ts => .list (plainAll ts)
  | t => t

def plainAll : List Term → List Term
  | [] => []
  | t :: ts => t.plain :: plainAll ts

end

theorem eq_of_sameNan {x y : Term} (h : x.sameNan y = true) : x = y := by
  unfold sameNan at h
  split at h
  · rw [beq_iff_eq.1 h]
  · cases h

mutual

/-- Equal terms of the same kinds differ in nothing but the signs of zeros. -/
theorem plain_eq_of_equal {x y : Term} (h : x.equal y = true) (hk : x.kinds = y.kinds) :
    x.plain = y.plain := by
  cases x <;> cases y <;> simp only [kinds, reduceCtorEq, list.injEq, tuple.injEq] at hk
  case float.float x y => exact congrArg Term.float (Binary64.plain_eq_of_equal h)
  case tuple.tuple xs ys => exact congrArg Term.tuple (plainAll_eq_of_equalAll h hk)
  case list.list xs ys => exact congrArg Term.list (plainAll_eq_of_equalAll h hk)
  all_goals simp_all [equal, equalNumbers]

theorem plainAll_eq_of_equalAll {xs ys : List Term} (h : equalAll xs ys = true)
    (hk : kindsOf xs = kindsOf ys) : plainAll xs = plainAll ys := by
  cases xs with
  | nil => cases ys with
    | nil => rfl
    | cons y ys => cases hk
  | cons x xs => cases ys with
    | nil => cases hk
    | cons y ys =>
      rw [kindsOf, kindsOf, List.cons.injEq] at hk
      rw [equalAll, Bool.and_eq_true, Bool.or_eq_true] at h
      have hx : x.plain = y.plain := by
        rcases h.1 with h | h
        · rw [eq_of_sameNan h]
        · exact plain_eq_of_equal h hk.1
      rw [plainAll, plainAll, hx, plainAll_eq_of_equalAll h.2 hk.2]

end

mutual

theorem equal_of_plain_eq {x y : Term} (h : x.plain = y.plain) (hy : y.hasNan = false) :
    x.equal y = true := by
  cases x <;> cases y <;> simp only [plain, reduceCtorEq, float.injEq, list.injEq, tuple.injEq] at h
  case float.float x y =>
    refine Binary64.equal_of_plain_eq h ?_
    rintro tag rfl
    exact Bool.false_ne_true hy.symm
  case tuple.tuple xs ys => exact equalAll_of_plainAll_eq h hy
  case list.list xs ys => exact equalAll_of_plainAll_eq h hy
  all_goals simp_all [equal, equalNumbers]

theorem equalAll_of_plainAll_eq {xs ys : List Term} (h : plainAll xs = plainAll ys)
    (hy : anyNan ys = false) : equalAll xs ys = true := by
  cases xs with
  | nil => cases ys with
    | nil => rfl
    | cons y ys => cases h
  | cons x xs => cases ys with
    | nil => cases h
    | cons y ys =>
      rw [plainAll, plainAll, List.cons.injEq] at h
      rw [anyNan, Bool.or_eq_false_iff] at hy
      rw [equalAll, equal_of_plain_eq h.1 hy.1, equalAll_of_plainAll_eq h.2 hy.2, Bool.or_true,
        Bool.and_true]

end

theorem equal_self {v : Term} (h : v.hasNan = false) : v.equal v = true := equal_of_plain_eq rfl h

theorem hasNan_list_cons {x : Term} {xs : List Term} :
    (list (x :: xs)).hasNan = false ↔ x.hasNan = false ∧ (list xs).hasNan = false := by
  rw [hasNan, anyNan, Bool.or_eq_false_iff, hasNan]

theorem equal_list_iff {w : Term} {xs : List Term} :
    w.equal (.list xs) = true ↔ ∃ ws, w = .list ws ∧ equalAll ws xs = true := by
  cases w <;> simp [equal, equalNumbers]

theorem equal_nil_iff {v : Term} : v.equal (.list []) = true ↔ v = .list [] := by
  rw [equal_list_iff]
  constructor
  · rintro ⟨ws, rfl, h⟩
    cases ws with
    | nil => rfl
    | cons w ws => cases h
  · rintro rfl
    exact ⟨[], rfl, rfl⟩

theorem plain_eq_nil_iff {v : Term} : v.plain = .list [] ↔ v = .list [] := by
  cases v with
  | list ts => cases ts <;> simp [plain, plainAll]
  | _ => simp [plain]

theorem plain_list_cons_eq {y v : Term} {ys : List Term} (h : (list (y :: ys)).plain = v.plain) :
    ∃ x xs, v = .list (x :: xs) ∧ y.plain = x.plain ∧ (list ys).plain = (list xs).plain := by
  cases v with
  | list ts =>
    cases ts with
    | nil => simp [plain, plainAll] at h
    | cons x xs =>
      simp only [plain, plainAll, list.injEq, List.cons.injEq] at h
      exact ⟨x, xs, rfl, h.1, congrArg list h.2⟩
  | _ => simp [plain] at h

theorem plain_eq_atom_iff {v : Term} {name : Text} : v.plain = .atom name ↔ v = .atom name := by
  cases v <;> simp [plain]

theorem plain_eq_int_iff {v : Term} {i : Int} : v.plain = .int i ↔ v = .int i := by
  cases v <;> simp [plain]

end Term

end EnumForms
