import EnumForms.Proofs.Readable

/-!
Infinite floats are not read back. A positive one is written as a name, a dot and a zero, and the
dot closes a form; a negative one starts no token. So lines with an infinite float in them are not
read as so many terms.
-/
namespace EnumForms

open Term

def dots (us : List Token) : Nat := us.countP (·.kind = .dot)

@[simp] theorem dots_nil : dots [] = 0 := rfl

@[simp] theorem dots_cons (u : Token) (us : List Token) :
    dots (u :: us) = dots us + if u.kind = .dot then 1 else 0 := by
  simp [dots, List.countP_cons]

@[simp] theorem dots_append (us vs : List Token) : dots (us ++ vs) = dots us + dots vs :=
  List.countP_append

def Symbol.dotCount (ns : List Node) : Symbol → Nat
  | .start => ns.length
  | .form => 1
  | _ => 0

theorem dots_of_derives {s : Symbol} {us : List Token} {ns : List Node} (h : Derives s us ns) :
    dots us = s.dotCount ns := by
  induction h with
  | noForm => rfl
  | forms _ _ hu hv => simp [hu, hv, Symbol.dotCount, Nat.add_comm]
  | form _ hd hu => simp [hu, hd, Symbol.dotCount]
  | literal hk => simp [hk, Symbol.dotCount]
  | strings hk =>
    have hn : ∀ us : List Token, (∀ x ∈ us, x.kind = .string) → dots us = 0 := by
      intro us hs
      refine List.countP_eq_zero.2 fun x hx => ?_
      simp [hs x hx]
    exact hn _ hk
  | ofTuple _ hu => exact hu
  | ofList _ hu => exact hu
  | emptyTuple ho hc => simp [ho, hc, Symbol.dotCount]
  | tuple ho _ hc hu => simp [ho, hc, hu, Symbol.dotCount]
  | emptyList ho hc => simp [ho, hc, Symbol.dotCount]
  | list ho _ hc hu => simp [ho, hc, hu, Symbol.dotCount]
  | listWithTail ho _ _ hc hu hv => simp [ho, hc, hu, hv, Symbol.dotCount]
  | tail hb _ hu => simp [hb, hu, Symbol.dotCount]
  | one _ hu => exact hu
  | more _ hc _ hu hv => simp [hc, hu, hv, Symbol.dotCount]

/-- The text is cut by itself, whatever stands after it, and an infinite float in it leaves a dot
among its tokens. -/
def Held (infinite : Bool) (u : Text) : Prop :=
  ∀ p rest, Stops rest → ∀ ts, Lexed p (u ++ rest) ts →
    ∃ us more, ts = us ++ more ∧ Lexed (p.advance u) rest more ∧ (dots us = 0 → infinite = false)

namespace Held

variable {a b : Bool} {u v : Text}

theorem of_spelled {t : Term} (h : Spelled u t) : Held false u := by
  intro p rest hr ts hx
  obtain ⟨us, n, hc, -⟩ := h p
  obtain ⟨more, rfl, hm⟩ := (hc rest hr ts).1 hx
  exact ⟨us, more, rfl, hm, fun _ => rfl⟩

theorem nil : Held false [] := fun _ _ _ ts hx => ⟨[], ts, rfl, hx, fun _ => rfl⟩

theorem append (hu : Held a u) (hv : Held b v) (hs : ∀ rest, Stops rest → Stops (v ++ rest)) :
    Held (a || b) (u ++ v) := by
  intro p rest hr ts hx
  rw [List.append_assoc] at hx
  obtain ⟨us, ts', rfl, hx', ha⟩ := hu p _ (hs rest hr) ts hx
  obtain ⟨vs, more, rfl, hm, hb⟩ := hv _ rest hr ts' hx'
  refine ⟨us ++ vs, more, (List.append_assoc ..).symm, ?_, fun h0 => ?_⟩
  · rw [Place.advance_append]
    exact hm
  · rw [dots_append, Nat.add_eq_zero_iff] at h0
    rw [ha h0.1, hb h0.2, Bool.or_false]

theorem sign {k : Kind} {ch : Char} (hk : k.lexeme? = Lexeme.single ch)
    (hf : k.family ≠ .literal .int) (hv : Held a v) : Held a (.ofChar ch :: v) := by
  intro p rest hr ts hx
  have hl : k.Leads (.ofChar ch :: (v ++ rest)) [.ofChar ch] (v ++ rest) := by
    apply Kind.leads_of_lexeme? hf
    rw [hk]
    simp [Lexeme.single, CodePoint.is_iff]
  obtain ⟨ts', rfl, hx'⟩ := (Lexed.iff_of_leads hl).1 hx
  obtain ⟨vs, more, rfl, hm, ha⟩ := hv _ rest hr ts' hx'
  refine ⟨⟨k, [.ofChar ch], p⟩ :: vs, more, rfl, hm, fun h0 => ha ?_⟩
  rw [dots_cons, Nat.add_eq_zero_iff] at h0
  exact h0.1

theorem infinite : Held true (floatText (.infinite false)) := by
  intro p rest hr ts hx
  have hn : ∀ c ∈ (lit ".0" ++ rest).head?, Atom.isNamePart c = false := by
    intro c hc
    cases hc
    decide
  have ht : Lexeme.atom (lit "inf" ++ (lit ".0" ++ rest)) = some (lit "inf", lit ".0" ++ rest) :=
    Lexeme.atom_append (by decide) hn
  have ha : (Kind.literal .atom).Leads (lit "inf" ++ (lit ".0" ++ rest)) (lit "inf")
      (lit ".0" ++ rest) := Kind.leads_of_lexeme? (by decide) ht
  have hd : Kind.dot.Leads (lit ".0" ++ rest) (lit ".") (lit "0" ++ rest) :=
    Kind.leads_of_lexeme? (by decide) rfl
  obtain ⟨ts₁, rfl, hx₁⟩ := (Lexed.iff_of_leads ha).1 hx
  obtain ⟨ts₂, rfl, hx₂⟩ := (Lexed.iff_of_leads hd).1 hx₁
  obtain ⟨ts₃, rfl, hx₃⟩ := (Lexed.iff_of_leads (Lexeme.int_leads 0 hr)).1 hx₂
  exact ⟨[_, _, _], ts₃, rfl, hx₃, fun h0 => by simp at h0⟩

/-- No token starts with a minus sign before a letter. -/
theorem minusInfinite : Held true (floatText (.infinite true)) := by
  intro p rest hr ts hx
  have hi : Lexeme.int (floatText (.infinite true) ++ rest) = none := rfl
  cases hx with
  | layout hl _ => cases family?_of_layout hl
  | @token _ _ t r k _ hk _ =>
    have hf : some (Kind.literal .int) = some k.family := Kind.family_of_lexeme? hk.1
    cases k with
    | literal l =>
      cases l with
      | int => cases hi.symm.trans hk.1
      | basedInt =>
        have hb : Lexeme.basedInt (floatText (.infinite true) ++ rest) = some (t, r) := hk.1
        obtain ⟨a, q, b, ha, -⟩ := Lexeme.andThen_eq_some.1 hb
        cases hi.symm.trans ha
      | float =>
        have hb : Lexeme.float (floatText (.infinite true) ++ rest) = some (t, r) := hk.1
        obtain ⟨a, q, b, ha, -⟩ := Lexeme.andThen_eq_some.1 hb
        cases hi.symm.trans ha
      | _ => cases hf
    | _ => cases hf

theorem terms {t : Term} {ts : List Term} (h : ∀ x ∈ t :: ts, Held x.hasInfinite x.text) :
    Held (anyInfinite (t :: ts)) (Text.join (lit ",") (texts (t :: ts))) := by
  induction ts generalizing t with
  | nil =>
    have ht := h t (by simp)
    simpa [anyInfinite, texts, Text.join] using ht
  | cons t' ts ih =>
    rw [List.forall_mem_cons] at h
    have hs : Held (anyInfinite (t' :: ts)) (lit "," ++ Text.join (lit ",") (texts (t' :: ts))) :=
      .sign (k := .comma) rfl (by decide) (ih h.2)
    rw [texts, texts, Text.join_cons_cons]
    exact h.1.append hs fun rest _ => stops_of_sign (.inl rfl) _

theorem enclosed {ts : List Term} (h : ∀ x ∈ ts, Held x.hasInfinite x.text) {o c : Kind} {x y : Char}
    (ho : o.lexeme? = Lexeme.single x) (hof : o.family ≠ .literal .int)
    (hc : c.lexeme? = Lexeme.single y) (hcf : c.family ≠ .literal .int)
    (hy : y = ',' ∨ y = '\x7d' ∨ y = ']') :
    Held (anyInfinite ts) (.ofChar x :: (Text.join (lit ",") (texts ts) ++ [.ofChar y])) := by
  have hend : Held false [.ofChar y] := .sign hc hcf .nil
  apply sign ho hof
  cases ts with
  | nil => exact hend
  | cons t ts =>
    have hb := (terms h).append hend fun rest _ => stops_of_sign hy rest
    rwa [Bool.or_false] at hb

end Held

theorem Term.Readable.held {t : Term} (h : t.Readable) (ho : t.hasOverlong = false) :
    Held t.hasInfinite t.text := by
  induction h with
  | atom name => exact .of_spelled (spelled_atom name)
  | int i => exact .of_spelled (spelled_int (Decimal.natAbs_lt_of_not_overlong ho))
  | @float x hc =>
    cases x with
    | nan tag => exact hc.elim
    | infinite negative =>
      cases negative with
      | true => exact .minusInfinite
      | false => exact .infinite
    | finite s m e => exact .of_spelled (spelled_float hc)
  | str s => exact .of_spelled (spelled_str s)
  | tuple _ ih =>
    exact .enclosed (fun t ht => ih t ht (anyOverlong_eq_false_iff.1 ho t ht))
      (o := .openTuple) (c := .closeTuple) rfl (by decide) rfl (by decide) (.inr (.inl rfl))
  | list _ ih =>
    exact .enclosed (fun t ht => ih t ht (anyOverlong_eq_false_iff.1 ho t ht))
      (o := .openList) (c := .closeList) rfl (by decide) rfl (by decide) (.inr (.inr rfl))

/-- The dots in some lines are at least those at their ends, and if there are no more, no float in
the lines is infinite. -/
theorem dots_lines {ts : List Term} (h : ∀ t ∈ ts, Held t.hasInfinite t.text) {p : Place}
    {us : List Token} (hx : Lexed p (lines ts) us) :
    ts.length ≤ dots us ∧ (dots us = ts.length → anyInfinite ts = false) := by
  induction ts generalizing p us with
  | nil => exact ⟨Nat.zero_le _, fun _ => rfl⟩
  | cons t ts ih =>
    rw [List.forall_mem_cons] at h
    rw [lines_cons] at hx
    obtain ⟨us, more, rfl, hm, hi⟩ := h.1 p _ (stops_dot_newline _) _ hx
    obtain ⟨vs, rfl, hv⟩ := lexed_dot_newline_iff.1 hm
    obtain ⟨hle, hrest⟩ := ih h.2 hv
    simp only [dots_append, dots_cons, if_true, List.length_cons]
    refine ⟨by omega, fun hd => ?_⟩
    rw [anyInfinite, hi (by omega), hrest (by omega)]
    rfl

theorem hasInfinite_eq_false_of_readTerms_lines {ts ts' : List Term} (h : ∀ t ∈ ts, t.Readable)
    (ho : ∀ t ∈ ts, t.hasOverlong = false) (hr : readTerms (lines ts) = .ok ts')
    (hl : ts'.length = ts.length) : ∀ t ∈ ts, t.hasInfinite = false := by
  obtain ⟨ns, hp, hv⟩ := Attempt.bind_eq_ok.1 hr
  obtain ⟨us, hx, hd⟩ := parse_eq_ok_iff.1 hp
  have hdots : dots us = ns.length := dots_of_derives hd
  have hlen := Node.length_of_values hv
  have hheld := dots_lines (fun t ht => (h t ht).held (ho t ht)) hx
  exact anyInfinite_eq_false_iff.1 (hheld.2 (by omega))

end EnumForms
