import EnumForms.Text

/-!
An attempt gives a value or the reason why there is none. The value may be demanded, which is
refused where there is none, or taken with another one in reserve.
-/
namespace EnumForms

abbrev Attempt (α : Type) := Except Text α

namespace Attempt

def isFailed (a : Attempt α) : Bool := !a.isOk

def refusal (reason : Text) : Text := lit "Tentou unwrap() em Err: " ++ reason

def demand (a : Attempt α) : Attempt α := a.mapError refusal

def valueOr (other : α) (a : Attempt α) : α := a.toOption.getD other

def reason? : Except ε α → Option ε
  | .ok _ => none
  | .error e => some e

@[simp]
theorem ok_bind (a : α) (f : α → Except ε β) : (Except.ok a >>= f) = f a := rfl

@[simp]
theorem error_bind (e : ε) (f : α → Except ε β) : (Except.error e >>= f) = .error e := rfl

theorem bind_eq_ok {x : Except ε α} {f : α → Except ε β} {b : β} :
    x >>= f = .ok b ↔ ∃ a, x = .ok a ∧ f a = .ok b := by
  cases x with
  | ok a => simp
  | error e => simp

theorem map_eq_ok {x : Except ε α} {f : α → β} {b : β} :
    x.map f = .ok b ↔ ∃ a, x = .ok a ∧ f a = b := by
  cases x <;> simp [Except.map]

theorem map_eq_error {x : Except ε α} {f : α → β} {e : ε} :
    x.map f = .error e ↔ x = .error e := by
  cases x <;> simp [Except.map]

@[simp]
theorem mapError_ok (a : α) (f : ε → δ) : (Except.ok a).mapError f = .ok a := rfl

@[simp]
theorem mapError_error (e : ε) (f : ε → δ) : (Except.error e : Except ε α).mapError f = .error (f e) :=
  rfl

theorem mapError_eq_ok {x : Except ε α} {f : ε → δ} {a : α} :
    x.mapError f = .ok a ↔ x = .ok a := by
  cases x <;> simp

theorem toOption_eq_some {x : Except ε α} {a : α} : x.toOption = some a ↔ x = .ok a := by
  cases x <;> simp [Except.toOption]

theorem reason?_eq_some {x : Except ε α} {e : ε} : reason? x = some e ↔ x = .error e := by
  cases x <;> simp [reason?]

theorem reason?_eq_none {x : Except ε α} : reason? x = none ↔ ∃ a, x = .ok a := by
  cases x <;> simp [reason?]

theorem reason?_or_bind (x : Except ε α) (f : α → Except ε β) :
    (reason? x).or (reason? (x >>= f)) = reason? (x >>= f) := by
  cases x <;> rfl

theorem mapError_map (x : Except ε α) (g : ε → δ) (h : α → β) :
    (x.map h).mapError g = (x.mapError g).map h := by
  cases x <;> rfl

theorem mapError_bind (x : Except ε α) (g : ε → δ) (h : α → Except ε β) :
    (x >>= h).mapError g = x.mapError g >>= fun a => (h a).mapError g := by
  cases x <;> rfl

theorem reason?_mapM (f : α → Except ε β) (xs : List α) :
    reason? (xs.mapM f) = xs.findSome? fun x => reason? (f x) := by
  induction xs with
  | nil => rfl
  | cons x xs ih =>
    rw [List.mapM_cons, List.findSome?_cons, ← ih]
    cases f x with
    | error e => rfl
    | ok y => cases xs.mapM f <;> rfl

/-- Either one of the steps is refused, always for the same reason, or each has its value. -/
theorem mapM_ite {f : α → Except ε β} (p : α → Bool) (e : ε) (g : α → β)
    {xs : List α} (h : ∀ x ∈ xs, f x = if p x then .error e else .ok (g x)) :
    xs.mapM f = if xs.any p then .error e else .ok (xs.map g) := by
  induction xs with
  | nil => rfl
  | cons x xs ih =>
    rw [List.forall_mem_cons] at h
    rw [List.mapM_cons, h.1, ih h.2, List.any_cons]
    cases p x <;> cases xs.any p <;> rfl

theorem mapM_ok {f : α → Except ε β} (g : α → β) {xs : List α}
    (h : ∀ x ∈ xs, f x = .ok (g x)) : xs.mapM f = .ok (xs.map g) := by
  induction xs with
  | nil => rfl
  | cons x xs ih =>
    rw [List.forall_mem_cons] at h
    rw [List.mapM_cons, h.1, ih h.2]
    rfl

end Attempt

end EnumForms
