import EnumForms.Proofs.FloatText

/-!
Terms that are read, and the lines they are written on. What is read from a text holds floats in the
form in which each number is held once. If no integer is too long and no float infinite, such terms
are read again as they are, each from a line of its own.
-/
namespace EnumForms

theorem Binary64.canonical_ofLiteral (t : Text) : (ofLiteral t).Canonical :=
  canonical_ofScientific _ _ _

namespace Term

mutual

/-- Does the term hold a float past the greatest finite one? -/
def hasInfinite : Term → Bool
  | .float (.infinite _) => true
  | .tuple items => anyInfinite items
  | .list items => anyInfinite items
  | _ => false

def anyInfinite : List Term → Bool
  | [] => false
  | t :: ts => t.hasInfinite || anyInfinite ts

end

/-- Terms a text may be read as. -/
inductive Readable : Term → Prop where
  | atom (name : Text) : Readable (.atom name)
  | int (i : Int) : Readable (.int i)
  | float {x : Binary64} : x.Canonical → Readable (.float x)
  | str (s : Text) : Readable (.str s)
  | tuple {ts : List Term} : (∀ t ∈ ts, Readable t) → Readable (.tuple ts)
  | list {ts : List Term} : (∀ t ∈ ts, Readable t) → Readable (.list ts)

theorem Readable.holdsNothing_eq_false {t : Term} (h : t.Readable) : t.holdsNothing = false := by
  induction h with
  | atom | int | float | str => rfl
  | tuple _ ih => exact anyHoldsNothing_eq_false_iff.2 ih
  | list _ ih => exact anyHoldsNothing_eq_false_iff.2 ih

theorem Readable.isWritable_iff {t : Term} (h : t.Readable) :
    t.isWritable = true ↔ t.hasOverlong = false := by
  rw [Term.isWritable_iff, and_iff_left h.holdsNothing_eq_false]

end Term

open Term

/-! ## What is read -/

theorem readable_of_map {ε α : Type} {x : Except ε α} {f : α → Term} {t : Term}
    (hf : ∀ a, (f a).Readable) (h : x.map f = .ok t) : t.Readable := by
  obtain ⟨a, -, rfl⟩ := Attempt.map_eq_ok.1 h
  exact hf a

theorem Literal.readable_of_value {l : Literal} {place : Place} {text : Text} {t : Term}
    (h : l.value place text = .ok t) : t.Readable := by
  cases l with
  | atom =>
    cases h
    exact .atom text
  | quotedAtom => exact readable_of_map .atom h
  | int =>
    simp only [value] at h
    split at h
    · cases h
      exact .int _
    · cases h
  | basedInt => exact readable_of_map .int h
  | float =>
    cases h
    exact .float (Binary64.canonical_ofLiteral text)
  | char => exact readable_of_map .int h

namespace Node

mutual

theorem readable_of_value {n : Node} {t : Term} (h : n.value = .ok t) : t.Readable := by
  cases n with
  | literal l text place => exact Literal.readable_of_value h
  | strings place texts => exact readable_of_map .str h
  | tuple place items =>
    obtain ⟨ts, hts, h⟩ := Attempt.bind_eq_ok.1 h
    cases h
    exact .tuple (readable_of_values hts)
  | list place items =>
    obtain ⟨ts, hts, h⟩ := Attempt.bind_eq_ok.1 h
    cases h
    exact .list (readable_of_values hts)
  | listWithTail place items tail =>
    obtain ⟨ts, hts, h⟩ := Attempt.bind_eq_ok.1 h
    obtain ⟨t', ht', h⟩ := Attempt.bind_eq_ok.1 h
    have hs := readable_of_values hts
    have ht := readable_of_value ht'
    split at h
    · cases h
      cases ht with
      | list hm => exact .list fun x hx => (List.mem_append.1 hx).elim (hs x) (hm x)
    · cases h

theorem readable_of_values {ns : List Node} {ts : List Term} (h : values ns = .ok ts) :
    ∀ t ∈ ts, t.Readable := by
  cases ns with
  | nil =>
    cases h
    simp
  | cons n ns =>
    obtain ⟨t, ht, h⟩ := Attempt.bind_eq_ok.1 h
    obtain ⟨rest, hr, h⟩ := Attempt.bind_eq_ok.1 h
    cases h
    exact List.forall_mem_cons.2 ⟨readable_of_value ht, readable_of_values hr⟩

end

theorem length_of_values {ns : List Node} {ts : List Term} (h : values ns = .ok ts) :
    ns.length = ts.length := by
  induction ns generalizing ts with
  | nil =>
    cases h
    rfl
  | cons n ns ih =>
    obtain ⟨t, -, h⟩ := Attempt.bind_eq_ok.1 h
    obtain ⟨rest, hr, h⟩ := Attempt.bind_eq_ok.1 h
    cases h
    rw [List.length_cons, List.length_cons, ih hr]

end Node

theorem readable_of_readTerms {s : Text} {ts : List Term} (h : readTerms s = .ok ts) :
    ∀ t ∈ ts, t.Readable := by
  obtain ⟨ns, -, hv⟩ := Attempt.bind_eq_ok.1 h
  exact Node.readable_of_values hv

/-! ## What is read back -/

theorem Decimal.natAbs_lt_of_not_overlong {i : Int} (h : isOverlong i = false) :
    i.natAbs < 10 ^ limit := by
  simp only [isOverlong, decide_eq_false_iff_not, not_lt] at h
  exact (lt_pow_length_ofNat _).trans_le (Nat.pow_le_pow_right (by decide) h)

namespace Term

theorem anyInfinite_eq_false_iff {ts : List Term} :
    anyInfinite ts = false ↔ ∀ t ∈ ts, t.hasInfinite = false := by
  induction ts with
  | nil => simp [anyInfinite]
  | cons t ts ih => simp [anyInfinite, ih]

theorem Readable.spelled {t : Term} (h : t.Readable) (ho : t.hasOverlong = false)
    (hi : t.hasInfinite = false) : Spelled t.text t := by
  induction h with
  | atom name => exact spelled_atom name
  | int i => exact spelled_int (Decimal.natAbs_lt_of_not_overlong ho)
  | @float x hc =>
    cases x with
    | nan tag => exact hc.elim
    | infinite negative => cases hi
    | finite s m e => exact spelled_float hc
  | str s => exact spelled_str s
  | tuple _ ih =>
    simp only [hasOverlong, hasInfinite, anyOverlong_eq_false_iff, anyInfinite_eq_false_iff] at ho hi
    exact spelled_tuple fun t ht => ih t ht (ho t ht) (hi t ht)
  | list _ ih =>
    simp only [hasOverlong, hasInfinite, anyOverlong_eq_false_iff, anyInfinite_eq_false_iff] at ho hi
    exact spelled_list fun t ht => ih t ht (ho t ht) (hi t ht)

def lines (ts : List Term) : Text := ts.flatMap fun t => t.text ++ lit ".\n"

theorem lines_cons (t : Term) (ts : List Term) :
    lines (t :: ts) = t.text ++ .ofChar '.' :: .newline :: lines ts := by
  simp [lines]
  rfl

end Term

theorem stops_dot_newline (rest : Text) : Stops (.ofChar '.' :: .newline :: rest) := by
  refine ⟨?_, rfl, ?_⟩
  · intro c hc
    cases hc
    decide
  · intro r hr c hc
    cases hr
    cases hc
    decide

theorem lexed_dot_newline_iff {p : Place} {rest : Text} {ts : List Token} :
    Lexed p (.ofChar '.' :: .newline :: rest) ts ↔ ∃ more, ts = ⟨.dot, lit ".", p⟩ :: more ∧
      Lexed ((p.next (.ofChar '.')).next .newline) rest more := by
  have hl : Kind.dot.Leads (.ofChar '.' :: .newline :: rest) (lit ".") (.newline :: rest) :=
    Kind.leads_of_lexeme? (by decide) rfl
  simp only [Lexed.iff_of_leads hl, Lexed.newline_cons_iff]
  rfl

theorem lexed_lines {ts : List Term} (h : ∀ t ∈ ts, Spelled t.text t) (p : Place) :
    ∃ us ns, Lexed p (lines ts) us ∧ Derives .start us ns ∧ Node.values ns = .ok ts := by
  induction ts generalizing p with
  | nil => exact ⟨[], [], .done, .noForm, rfl⟩
  | cons t ts ih =>
    rw [List.forall_mem_cons] at h
    obtain ⟨us, n, hc, hd, hv⟩ := h.1 p
    obtain ⟨vs, ns, hx, hds, hvs⟩ := ih h.2 (((p.advance t.text).next (.ofChar '.')).next .newline)
    refine ⟨us ++ ⟨.dot, lit ".", p.advance t.text⟩ :: vs, n :: ns, ?_, ?_, ?_⟩
    · rw [lines_cons, hc _ (stops_dot_newline _)]
      exact ⟨_, rfl, lexed_dot_newline_iff.2 ⟨vs, rfl, hx⟩⟩
    · simpa using Derives.forms (.form hd rfl) hds
    · simp [Node.values, hv, hvs]

theorem readTerms_lines {ts : List Term} (h : ∀ t ∈ ts, t.Readable)
    (ho : ∀ t ∈ ts, t.hasOverlong = false) (hi : ∀ t ∈ ts, t.hasInfinite = false) :
    readTerms (lines ts) = .ok ts := by
  obtain ⟨us, ns, hx, hd, hv⟩ :=
    lexed_lines (fun t ht => (h t ht).spelled (ho t ht) (hi t ht)) .start
  exact Attempt.bind_eq_ok.2 ⟨ns, parse_eq_ok_iff.2 ⟨us, hx, hd⟩, hv⟩

end EnumForms
