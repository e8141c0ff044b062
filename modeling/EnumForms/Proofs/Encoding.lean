import EnumForms.Form

/-!
Forms and the terms that stand for them. A term that is read as a form is the term of that form, and
a form is found again in its term; so a term is kept raw if and only if it is the term of no other
form.
-/
namespace EnumForms

namespace Position

theorem toTerm_of_ofTerm? {t : Term} {p : Position} (h : ofTerm? t = some p) : p.toTerm = t := by
  unfold ofTerm? at h
  split at h <;> cases h <;> rfl

theorem map_ofTerm?_eq_some {α : Type} {t : Term} {g : Position → α} {a : α}
    (h : (ofTerm? t).map g = some a) : ∃ p : Position, p.toTerm = t ∧ g p = a := by
  obtain ⟨p, hp, ha⟩ := Option.map_eq_some_iff.1 h
  exact ⟨p, toTerm_of_ofTerm? hp, ha⟩

end Position

namespace Expr

theorem toTerm_eq_tuple (e : Expr) : ∃ items, e.toTerm = .tuple items := by
  cases e <;> exact ⟨_, rfl⟩

mutual

theorem ofTerm?_toTerm (e : Expr) : ofTerm? e.toTerm = some e := by
  cases e with
  | atom p name => simp [toTerm, ofTerm?, Position.ofTerm?_toTerm]
  | integer p i => simp [toTerm, ofTerm?, Position.ofTerm?_toTerm]
  | var p name =>
    have hne : lit "var" ≠ lit "atom" := by decide
    simp [toTerm, ofTerm?, Position.ofTerm?_toTerm, hne]
  | nil p => simp [toTerm, ofTerm?, Position.ofTerm?_toTerm]
  | cons p head tail =>
    have hh := ofTerm?_toTerm head
    have ht := ofTerm?_toTerm tail
    -- the tail is no list, so the term is not taken for a call
    obtain ⟨items, hi⟩ := tail.toTerm_eq_tuple
    rw [hi] at ht
    simp [toTerm, ofTerm?, Position.ofTerm?_toTerm, hh, hi, ht]
  | call p function args =>
    have hf := ofTerm?_toTerm function
    have ha := ofTerms?_toTerms args
    simp [toTerm, ofTerm?, Position.ofTerm?_toTerm, hf, ha]

theorem ofTerms?_toTerms (es : List Expr) : ofTerms? (toTerms es) = some es := by
  cases es with
  | nil => rfl
  | cons e es =>
    have he := ofTerm?_toTerm e
    have hs := ofTerms?_toTerms es
    simp [toTerms, ofTerms?, he, hs]

end

mutual

theorem toTerm_of_ofTerm? {t : Term} {e : Expr} (h : ofTerm? t = some e) : e.toTerm = t := by
  unfold ofTerm? at h
  split at h
  · split at h
    · next ht =>
      obtain ⟨p, rfl, rfl⟩ := Position.map_ofTerm?_eq_some h
      rw [toTerm, ht]
    · cases h
  · split at h
    · next ht =>
      obtain ⟨p, rfl, rfl⟩ := Position.map_ofTerm?_eq_some h
      rw [toTerm, ht]
    · split at h
      · next ht =>
        obtain ⟨p, rfl, rfl⟩ := Position.map_ofTerm?_eq_some h
        rw [toTerm, ht]
      · cases h
  · split at h
    · next ht =>
      obtain ⟨p, rfl, rfl⟩ := Position.map_ofTerm?_eq_some h
      rw [toTerm, ht]
    · cases h
  · split at h
    · next ht =>
      obtain ⟨p, hp, h⟩ := Option.bind_eq_some_iff.1 h
      obtain ⟨function, hf, h⟩ := Option.bind_eq_some_iff.1 h
      obtain ⟨args, ha, h⟩ := Option.bind_eq_some_iff.1 h
      cases h
      rw [toTerm, Position.toTerm_of_ofTerm? hp, toTerm_of_ofTerm? hf, toTerms_of_ofTerms? ha, ht]
    · cases h
  · split at h
    · next ht =>
      obtain ⟨p, hp, h⟩ := Option.bind_eq_some_iff.1 h
      obtain ⟨head, hh, h⟩ := Option.bind_eq_some_iff.1 h
      obtain ⟨tail, hx, h⟩ := Option.bind_eq_some_iff.1 h
      cases h
      rw [toTerm, Position.toTerm_of_ofTerm? hp, toTerm_of_ofTerm? hh, toTerm_of_ofTerm? hx, ht]
    · cases h
  · cases h

theorem toTerms_of_ofTerms? {ts : List Term} {es : List Expr} (h : ofTerms? ts = some es) :
    toTerms es = ts := by
  cases ts with
  | nil => cases h; rfl
  | cons t ts =>
    obtain ⟨e, he, h⟩ := Option.bind_eq_some_iff.1 h
    obtain ⟨rest, hr, h⟩ := Option.bind_eq_some_iff.1 h
    cases h
    rw [toTerms, toTerm_of_ofTerm? he, toTerms_of_ofTerms? hr]

end

theorem listOfTerm?_eq_some_iff {t : Term} {es : List Expr} :
    listOfTerm? t = some es ↔ t = .list (toTerms es) := by
  constructor
  · intro h
    unfold listOfTerm? at h
    split at h
    · rw [toTerms_of_ofTerms? h]
    · cases h
  · rintro rfl
    exact ofTerms?_toTerms es

end Expr

theorem mapM_eq_some_iff_map {α β : Type} {f : β → Option α} {g : α → β}
    (h : ∀ b a, f b = some a ↔ b = g a) {bs : List β} {as : List α} :
    bs.mapM f = some as ↔ bs = as.map g := by
  induction bs generalizing as with
  | nil => cases as <;> simp
  | cons b bs ih =>
    rw [List.mapM_cons]
    cases as with
    | nil => simp [Option.bind_eq_some_iff]
    | cons a as => simp [Option.bind_eq_some_iff, h, ih]

namespace Clause

theorem guardsOfTerm?_eq_some_iff {t : Term} {gs : List (List Expr)} :
    guardsOfTerm? t = some gs ↔ t = .list (gs.map fun g => .list (Expr.toTerms g)) := by
  cases t with
  | list ts =>
    rw [guardsOfTerm?, mapM_eq_some_iff_map fun _ _ => Expr.listOfTerm?_eq_some_iff, Term.list.injEq]
  | _ => simp [guardsOfTerm?]

theorem ofTerm?_eq_some_iff {t : Term} {c : Clause} : ofTerm? t = some c ↔ t = c.toTerm := by
  constructor
  · intro h
    unfold ofTerm? at h
    split at h
    · split at h
      · next ht =>
        obtain ⟨pos, hp, h⟩ := Option.bind_eq_some_iff.1 h
        obtain ⟨patterns, hx, h⟩ := Option.bind_eq_some_iff.1 h
        obtain ⟨guards, hg, h⟩ := Option.bind_eq_some_iff.1 h
        obtain ⟨body, hb, h⟩ := Option.bind_eq_some_iff.1 h
        cases h
        rw [Expr.listOfTerm?_eq_some_iff] at hx hb
        rw [guardsOfTerm?_eq_some_iff] at hg
        rw [toTerm, Position.toTerm_of_ofTerm? hp, ht, hx, hg, hb]
      · cases h
    · cases h
  · rintro rfl
    have hx := Expr.listOfTerm?_eq_some_iff.2 (rfl : Term.list (Expr.toTerms c.patterns) = _)
    have hg := guardsOfTerm?_eq_some_iff.2
      (rfl : Term.list (c.guards.map fun g => .list (Expr.toTerms g)) = _)
    have hb := Expr.listOfTerm?_eq_some_iff.2 (rfl : Term.list (Expr.toTerms c.body) = _)
    simp [toTerm, ofTerm?, Position.ofTerm?_toTerm, hx, hg, hb]

theorem listOfTerm?_eq_some_iff {t : Term} {cs : List Clause} :
    listOfTerm? t = some cs ↔ t = .list (cs.map toTerm) := by
  cases t with
  | list ts => rw [listOfTerm?, mapM_eq_some_iff_map fun _ _ => ofTerm?_eq_some_iff, Term.list.injEq]
  | _ => simp [listOfTerm?]

end Clause

namespace Form

/-- An attribute, a function or an end mark. -/
def Known : Form → Prop
  | .raw _ => False
  | _ => True

theorem ofTerm?_eq_some_iff {t : Term} {f : Form} : ofTerm? t = some f ↔ f.Known ∧ f.toTerm = t := by
  constructor
  · intro h
    unfold ofTerm? at h
    split at h
    · split at h
      · next ht =>
        obtain ⟨p, rfl, rfl⟩ := Position.map_ofTerm?_eq_some h
        exact ⟨trivial, by rw [toTerm, ht]⟩
      · cases h
    · split at h
      · next ht =>
        obtain ⟨p, rfl, rfl⟩ := Position.map_ofTerm?_eq_some h
        exact ⟨trivial, by rw [toTerm, ht]⟩
      · cases h
    · split at h
      · next ht =>
        obtain ⟨pos, hp, h⟩ := Option.bind_eq_some_iff.1 h
        obtain ⟨clauses, hc, h⟩ := Option.bind_eq_some_iff.1 h
        cases h
        rw [Clause.listOfTerm?_eq_some_iff] at hc
        exact ⟨trivial, by rw [toTerm, FunctionDef.toTerm, Position.toTerm_of_ofTerm? hp, ht, hc]⟩
      · cases h
    · cases h
  · rintro ⟨hk, rfl⟩
    rcases f with ⟨pos, name, value⟩ | f | pos | t
    · simp [toTerm, ofTerm?, Position.ofTerm?_toTerm]
    · have hc := Clause.listOfTerm?_eq_some_iff.2 (rfl : Term.list (f.clauses.map Clause.toTerm) = _)
      simp [toTerm, FunctionDef.toTerm, ofTerm?, Position.ofTerm?_toTerm, hc]
    · simp [toTerm, ofTerm?, Position.ofTerm?_toTerm]
    · exact hk.elim

theorem ofTerm_of_ofTerm?_eq_none {t : Term} (h : ofTerm? t = none) : ofTerm t = .raw t := by
  rw [ofTerm, h, Option.getD_none]

theorem ofTerm_of_known {f : Form} (h : f.Known) : ofTerm f.toTerm = f := by
  rw [ofTerm, ofTerm?_eq_some_iff.2 ⟨h, rfl⟩, Option.getD_some]

theorem toTerm_ofTerm (t : Term) : (ofTerm t).toTerm = t := by
  cases h : ofTerm? t with
  | none => rw [ofTerm_of_ofTerm?_eq_none h, toTerm]
  | some f => rw [ofTerm, h, Option.getD_some, (ofTerm?_eq_some_iff.1 h).2]

theorem ofTerm_eq_raw_iff {t : Term} : ofTerm t = .raw t ↔ ¬ ∃ f : Form, f.Known ∧ f.toTerm = t := by
  constructor
  · rintro h ⟨f, hk, rfl⟩
    rw [ofTerm_of_known hk] at h
    rw [h] at hk
    exact hk
  · intro h
    cases hf : ofTerm? t with
    | none => exact ofTerm_of_ofTerm?_eq_none hf
    | some f => exact absurd ⟨f, ofTerm?_eq_some_iff.1 hf⟩ h

/-- Forms and terms are read from each other without loss: the form read from a term has that term,
it is raw only if no attribute, function or end mark has that term, and every one of these is read
from its term. -/
theorem ofTerm_inverts_toTerm :
    (∀ t, (ofTerm t).toTerm = t) ∧
    (∀ t, ofTerm t = .raw t ↔ ¬ ∃ f : Form, f.Known ∧ f.toTerm = t) ∧
    ∀ f : Form, f.Known → ofTerm f.toTerm = f :=
  ⟨toTerm_ofTerm, fun _ => ofTerm_eq_raw_iff, fun _ => ofTerm_of_known⟩

def guarded : Form :=
  let x : Expr := .var (.line 3) (lit "X")
  let test : Expr := .call (.line 3) (.atom (.line 3) (lit "is_atom")) [x]
  let body : Expr := .call (.line 4) (.call (.line (-4)) x []) [.nil (.line 5)]
  .function ⟨.lineColumn 3 1, lit "f", 1,
    [⟨.lineColumn 3 2, [x], [[test, .integer (.line 3) 7], []], [body, .cons (.line 6) x x]⟩]⟩

theorem ofTerm_inverts_toTerm_guarded :
    guarded.Known ∧ ofTerm guarded.toTerm = guarded ∧ ofTerm guarded.toTerm ≠ .raw guarded.toTerm := by
  have hk : guarded.Known := trivial
  have hr : ofTerm guarded.toTerm = guarded := ofTerm_inverts_toTerm.2.2 guarded hk
  refine ⟨hk, hr, fun h => ?_⟩
  exact (ofTerm_inverts_toTerm.2.1 guarded.toTerm).1 h ⟨guarded, hk, rfl⟩

end Form

end EnumForms
