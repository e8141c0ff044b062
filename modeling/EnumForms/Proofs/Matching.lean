import EnumForms.Proofs.Access
import EnumForms.Proofs.Kinds

/-!
Matching a pattern is the inverse of running it. What a match binds makes the pattern run to an
equal value, and a pattern that runs to a value of the same kinds matches it. Equality alone is not
enough for that: a variable that stands twice may meet `1` and then `1.0`, but an integer in a
pattern meets integers only.
-/
namespace EnumForms

namespace Bindings

/-- Every variable that has a value keeps it. -/
def Extends (b b' : Bindings) : Prop := ∀ x v, b.lookup x = some v → b'.lookup x = some v

theorem Extends.refl (b : Bindings) : b.Extends b := fun _ _ h => h

theorem Extends.trans {b₁ b₂ b₃ : Bindings} (h : b₁.Extends b₂) (h' : b₂.Extends b₃) :
    b₁.Extends b₃ := fun x v hv => h' x v (h x v hv)

theorem extends_cons {b : Bindings} {x : Text} (h : b.lookup x = none) (v : Term) :
    b.Extends ((x, v) :: b) := by
  intro y u hy
  have hne : y ≠ x := by
    rintro rfl
    rw [h] at hy
    cases hy
  rw [Module.lookup_cons_eq_ite, if_neg hne, hy]

def Suits (b b' : Bindings) : Prop :=
  ∀ x v, b.lookup x = some v → ∃ v', b'.lookup x = some v' ∧ v'.plain = v.plain

theorem Extends.suits {b b' : Bindings} (h : b.Extends b') : b.Suits b' :=
  fun x v hv => ⟨v, h x v hv, rfl⟩

theorem Suits.cons {b b' : Bindings} (h : b.Suits b') {x : Text} {v v' : Term}
    (hx : b'.lookup x = some v') (hv : v'.plain = v.plain) : Suits ((x, v) :: b) b' := by
  intro y u hy
  rw [Module.lookup_cons_eq_ite] at hy
  split at hy
  · next he =>
    cases hy
    exact ⟨v', he ▸ hx, hv⟩
  · exact h y u hy

end Bindings

namespace Expr

/-- What can stand in a pattern that binds all its variables. -/
inductive Pattern : Expr → Prop where
  | atom (pos : Position) (name : Text) : Pattern (.atom pos name)
  | integer (pos : Position) (i : Int) : Pattern (.integer pos i)
  | var (pos : Position) {name : Text} : name ≠ lit "_" → Pattern (.var pos name)
  | nil (pos : Position) : Pattern (.nil pos)
  | cons (pos : Position) {head tail : Expr} : Pattern head → Pattern tail →
      Pattern (.cons pos head tail)

mutual

def varNames : Expr → List Text
  | .atom .. | .integer .. | .nil _ => []
  | .var _ name => [name]
  | .cons _ head tail => head.varNames ++ tail.varNames
  | .call _ function args => function.varNames ++ varNamesOf args

def varNamesOf : List Expr → List Text
  | [] => []
  | e :: es => e.varNames ++ varNamesOf es

end

variable {call : Text → List Term → Except CallError Term} {p head tail : Expr} {pos : Position}
  {v w : Term} {b b' : Bindings}

theorem guarded_eq_iff {c : Prop} [Decidable c] :
    (.ok (if c then some b else none) : Except CallError (Option Bindings)) = .ok (some b') ↔
      c ∧ b = b' := by
  simp

theorem matches?_atom_iff {name : Text} :
    (atom pos name).matches? v b = .ok (some b') ↔ v = .atom name ∧ b = b' := by
  rw [matches?, guarded_eq_iff, Term.equal_atom]

theorem matches?_integer_iff {i : Int} :
    (integer pos i).matches? v b = .ok (some b') ↔ v = .int i ∧ b = b' := by
  have hv : v.int? = some i ↔ v = .int i := by cases v <;> simp [Term.int?]
  rw [matches?, guarded_eq_iff, hv]

theorem matches?_nil_iff : (nil pos).matches? v b = .ok (some b') ↔ v = .list [] ∧ b = b' := by
  rw [matches?, guarded_eq_iff, Term.equal_nil_iff]

theorem matches?_var_iff {name : Text} (hn : name ≠ lit "_") :
    (var pos name).matches? v b = .ok (some b') ↔
      (∃ u, b.lookup name = some u ∧ u.equal v = true ∧ b = b') ∨
        b.lookup name = none ∧ (name, v) :: b = b' := by
  rw [matches?, if_neg hn]
  cases h : b.lookup name with
  | none => simp
  | some u => simp

theorem matches?_cons_iff :
    (cons pos head tail).matches? v b = .ok (some b') ↔
      ∃ x xs b₁, v = .list (x :: xs) ∧ head.matches? x b = .ok (some b₁) ∧
        tail.matches? (.list xs) b₁ = .ok (some b') := by
  constructor
  · intro h
    cases v with
    | list vs =>
      cases vs with
      | nil => simp [matches?] at h
      | cons x xs =>
        rw [matches?] at h
        obtain ⟨b₁, hh, ht⟩ := Attempt.bind_eq_ok.1 h
        cases b₁ with
        | none => cases ht
        | some b₁ => exact ⟨x, xs, b₁, rfl, hh, ht⟩
    | _ => simp [matches?] at h
  · rintro ⟨x, xs, b₁, rfl, hh, ht⟩
    rw [matches?, hh]
    exact ht

theorem eval_cons_eq_ok_iff :
    eval call b (.cons pos head tail) = .ok w ↔
      ∃ x xs, eval call b head = .ok x ∧ eval call b tail = .ok (.list xs) ∧
        w = .list (x :: xs) := by
  rw [eval, Attempt.bind_eq_ok]
  constructor
  · rintro ⟨t, ht, h⟩
    cases t with
    | list xs =>
      obtain ⟨x, hx, hw⟩ := Attempt.bind_eq_ok.1 h
      cases hw
      exact ⟨x, xs, hx, ht, rfl⟩
    | _ => cases h
  · rintro ⟨x, xs, hx, ht, rfl⟩
    exact ⟨.list xs, ht, by simp [hx]⟩

theorem eval_var_eq_ok_iff {name : Text} :
    eval call b (.var pos name) = .ok w ↔ b.lookup name = some w := by
  rw [eval]
  cases b.lookup name <;> simp

theorem eval_of_extends (hp : p.Pattern) (he : b.Extends b') (h : eval call b p = .ok w) :
    eval call b' p = .ok w := by
  induction hp generalizing w with
  | atom | integer | nil => exact h
  | var => exact eval_var_eq_ok_iff.2 (he _ _ (eval_var_eq_ok_iff.1 h))
  | cons _ _ _ ihh iht =>
    obtain ⟨x, xs, hx, hxs, rfl⟩ := eval_cons_eq_ok_iff.1 h
    exact eval_cons_eq_ok_iff.2 ⟨x, xs, ihh hx, iht hxs, rfl⟩

theorem extends_of_matches? (hp : p.Pattern) (h : p.matches? v b = .ok (some b')) :
    b.Extends b' ∧ ∀ x, (b'.lookup x).isSome ↔ (b.lookup x).isSome ∨ x ∈ p.varNames := by
  induction hp generalizing v b b' with
  | atom =>
    obtain ⟨-, rfl⟩ := matches?_atom_iff.1 h
    exact ⟨.refl b, by simp [varNames]⟩
  | integer =>
    obtain ⟨-, rfl⟩ := matches?_integer_iff.1 h
    exact ⟨.refl b, by simp [varNames]⟩
  | nil =>
    obtain ⟨-, rfl⟩ := matches?_nil_iff.1 h
    exact ⟨.refl b, by simp [varNames]⟩
  | @var pos name hn =>
    rcases (matches?_var_iff hn).1 h with ⟨u, hu, -, rfl⟩ | ⟨hnone, rfl⟩
    · refine ⟨.refl b, fun x => ?_⟩
      have hx (he : x = name) : (b.lookup x).isSome := by rw [he, hu, Option.isSome_some]
      simpa [varNames] using hx
    · refine ⟨Bindings.extends_cons hnone v, fun x => ?_⟩
      rw [Module.lookup_cons_eq_ite]
      by_cases hx : x = name <;> simp [varNames, hx]
  | cons pos _ _ ihh iht =>
    obtain ⟨x, xs, b₁, rfl, hh, ht⟩ := matches?_cons_iff.1 h
    obtain ⟨he, hb⟩ := ihh hh
    obtain ⟨he', hb'⟩ := iht ht
    refine ⟨he.trans he', fun y => ?_⟩
    rw [hb', hb, varNames, List.mem_append, or_assoc]

theorem eval_of_matches? (hp : p.Pattern) (hv : v.hasNan = false)
    (h : p.matches? v b = .ok (some b')) : ∃ w, eval call b' p = .ok w ∧ w.equal v = true := by
  induction hp generalizing v b b' with
  | atom pos name =>
    obtain ⟨rfl, rfl⟩ := matches?_atom_iff.1 h
    exact ⟨.atom name, rfl, Term.equal_self hv⟩
  | integer pos i =>
    obtain ⟨rfl, rfl⟩ := matches?_integer_iff.1 h
    exact ⟨.int i, rfl, Term.equal_self hv⟩
  | nil pos =>
    obtain ⟨rfl, rfl⟩ := matches?_nil_iff.1 h
    exact ⟨.list [], rfl, Term.equal_self hv⟩
  | var pos hn =>
    rcases (matches?_var_iff hn).1 h with ⟨u, hu, huv, rfl⟩ | ⟨-, rfl⟩
    · exact ⟨u, eval_var_eq_ok_iff.2 hu, huv⟩
    · exact ⟨v, eval_var_eq_ok_iff.2 List.lookup_cons_self, Term.equal_self hv⟩
  | cons pos hph hpt ihh iht =>
    obtain ⟨x, xs, b₁, rfl, hh, ht⟩ := matches?_cons_iff.1 h
    obtain ⟨hx, hxs⟩ := Term.hasNan_list_cons.1 hv
    obtain ⟨y, hy, hyx⟩ := ihh hx hh
    obtain ⟨w, hw, hwxs⟩ := iht hxs ht
    obtain ⟨ys, rfl, hys⟩ := Term.equal_list_iff.1 hwxs
    -- the head was matched before the tail bound its variables
    have hy' := eval_of_extends hph (extends_of_matches? hpt ht).1 hy
    refine ⟨.list (y :: ys), eval_cons_eq_ok_iff.2 ⟨y, ys, hy', hw, rfl⟩, ?_⟩
    rw [Term.equal, Term.equalAll, hyx, hys, Bool.or_true, Bool.and_true]

/-- A pattern matches what it runs to, but for the signs of zeros. What the match binds on its way
are values that the variables have. -/
theorem matches?_of_eval (hp : p.Pattern) (hv : v.hasNan = false) (hb : b.Suits b')
    (he : eval call b' p = .ok w) (hw : w.plain = v.plain) :
    ∃ b₁, p.matches? v b = .ok (some b₁) ∧ b₁.Suits b' := by
  induction hp generalizing v w b with
  | atom pos name =>
    cases he
    exact ⟨b, matches?_atom_iff.2 ⟨Term.plain_eq_atom_iff.1 hw.symm, rfl⟩, hb⟩
  | integer pos i =>
    cases he
    exact ⟨b, matches?_integer_iff.2 ⟨Term.plain_eq_int_iff.1 hw.symm, rfl⟩, hb⟩
  | nil pos =>
    cases he
    exact ⟨b, matches?_nil_iff.2 ⟨Term.plain_eq_nil_iff.1 hw.symm, rfl⟩, hb⟩
  | @var pos name hn =>
    have hname := eval_var_eq_ok_iff.1 he
    cases h : b.lookup name with
    | none => exact ⟨_, (matches?_var_iff hn).2 (.inr ⟨h, rfl⟩), hb.cons hname hw⟩
    | some u =>
      -- the value bound before is that of the variable, as is what it meets now
      obtain ⟨u', hu', hplain⟩ := hb name u h
      rw [hname, Option.some.injEq] at hu'
      subst hu'
      have huv : u.equal v = true := Term.equal_of_plain_eq (hplain.symm.trans hw) hv
      exact ⟨b, (matches?_var_iff hn).2 (.inl ⟨u, h, huv, rfl⟩), hb⟩
  | cons pos _ _ ihh iht =>
    obtain ⟨y, ys, hy, hys, rfl⟩ := eval_cons_eq_ok_iff.1 he
    obtain ⟨x, xs, rfl, hyx, hyxs⟩ := Term.plain_list_cons_eq hw
    obtain ⟨hx, hxs⟩ := Term.hasNan_list_cons.1 hv
    obtain ⟨b₁, hm, hb₁⟩ := ihh hx hb hy hyx
    obtain ⟨b₂, hm', hb₂⟩ := iht hxs hb₁ hys hyxs
    exact ⟨b₂, matches?_cons_iff.2 ⟨x, xs, b₁, rfl, hm, hm'⟩, hb₂⟩

/-- Matching and running are inverse to each other on patterns. A match keeps the bindings, adds
exactly the variables of the pattern, and makes the pattern run to an equal value. If some more
bindings make the pattern run to a value that is equal, and of the same kinds throughout, there is a
match. -/
theorem matches?_inverse (hp : p.Pattern) (hv : v.hasNan = false) (b : Bindings)
    (call : Text → List Term → Except CallError Term) :
    (∀ b', p.matches? v b = .ok (some b') →
      b.Extends b' ∧
      (∀ x, (b'.lookup x).isSome ↔ (b.lookup x).isSome ∨ x ∈ p.varNames) ∧
      ∃ w, eval call b' p = .ok w ∧ w.equal v = true) ∧
    (∀ b' w, b.Extends b' → eval call b' p = .ok w → w.equal v = true → w.kinds = v.kinds →
      ∃ b₁, p.matches? v b = .ok (some b₁)) := by
  refine ⟨fun b' h => ?_, fun b' w he hw hequal hkinds => ?_⟩
  · obtain ⟨he, hb⟩ := extends_of_matches? hp h
    exact ⟨he, hb, eval_of_matches? hp hv h⟩
  · have hplain := Term.plain_eq_of_equal hequal hkinds
    obtain ⟨b₁, hm, -⟩ := matches?_of_eval hp hv he.suits hw hplain
    exact ⟨b₁, hm⟩

example : (integer (.line 1) 1).matches? (.bool true) [] = .ok none := rfl

def doubled : Expr :=
  let p := .line 1
  .cons p (.var p (lit "X")) (.cons p (.var p (lit "X")) (.cons p (.integer p 7) (.var p (lit "T"))))

def tailBound : Bindings := [(lit "T", .list [.int 1])]

/-- `true` and `1` match as two equal things, and so do the two zeros. -/
theorem matches?_inverse_doubled :
    (∃ b', doubled.matches? (.list [.bool true, .int 1, .int 7, .float (.finite false 1 0)])
        tailBound = .ok (some b') ∧
      tailBound.Extends b' ∧
      (∀ x, (b'.lookup x).isSome ↔ (tailBound.lookup x).isSome ∨ x ∈ doubled.varNames) ∧
      ∃ w, eval (fun _ _ => .error .tooDeep) b' doubled = .ok w ∧
        w.equal (.list [.bool true, .int 1, .int 7, .float (.finite false 1 0)]) = true) ∧
    ∃ b₁, doubled.matches? (.list [.float (.zero true), .float (.zero false), .int 7, .int 1])
      tailBound = .ok (some b₁) := by
  have hp : doubled.Pattern :=
    .cons _ (.var _ (by decide)) <| .cons _ (.var _ (by decide)) <|
      .cons _ (.integer _ 7) (.var _ (by decide))
  have hx : tailBound.lookup (lit "X") = none := by decide
  refine ⟨⟨(lit "X", .bool true) :: tailBound, rfl, ?_⟩, ?_⟩
  · exact (matches?_inverse hp rfl tailBound _).1 _ rfl
  · exact (matches?_inverse hp rfl tailBound fun _ _ => .error .tooDeep).2
      ((lit "X", .float (.zero false)) :: tailBound)
      (.list [.float (.zero false), .float (.zero false), .int 7, .int 1])
      (Bindings.extends_cons hx _) rfl (by decide) rfl

end Expr

end EnumForms
