import EnumForms.Proofs.Escapes
import EnumForms.Proofs.Grammar
import EnumForms.Proofs.Numerals

/-!
What is written is read back. A term stands before a comma, a closing bracket or a dot, and none of
these prolongs its last token; so the tokens of a term do not depend on what follows it.
-/
namespace EnumForms

structure Stops (s : Text) : Prop where
  name : ∀ c ∈ s.head?, Atom.isNamePart c = false
  base : Lexeme.single '#' s = none
  fraction : ∀ r, s = .ofChar '.' :: r → ∀ c ∈ r.head?, c.isDigit = false

theorem Stops.digit {s : Text} (h : Stops s) : ∀ c ∈ s.head?, c.isDigit = false := by
  intro c hc
  have := h.name c hc
  simp only [Atom.isNamePart, CodePoint.isAlphanumeric, Bool.or_eq_false_iff] at this
  exact this.1.1.1.1

theorem stops_cons {c : CodePoint} (hn : Atom.isNamePart c = false) (hb : c.is '#' = false)
    (hf : c ≠ .ofChar '.') (r : Text) : Stops (c :: r) := by
  refine ⟨?_, ?_, ?_⟩
  · rintro d ⟨⟩
    exact hn
  · simp [Lexeme.single, hb]
  · intro q hq
    exact absurd (List.cons_eq_cons.1 hq).1 hf

theorem stops_of_sign {ch : Char} (hs : ch = ',' ∨ ch = '\x7d' ∨ ch = ']') (r : Text) :
    Stops (.ofChar ch :: r) := by
  obtain rfl | rfl | rfl := hs <;> exact stops_cons (by decide) (by decide) (by decide) r

theorem stops_dot : Stops (lit ".") := by
  refine ⟨?_, rfl, ?_⟩
  · intro c hc
    cases hc
    decide
  · intro r hr c hc
    cases hr
    cases hc

namespace Lexeme

theorem atom_append {name rest : Text} (hn : Atom.isName name = true)
    (hr : ∀ c ∈ rest.head?, Atom.isNamePart c = false) :
    atom (name ++ rest) = some (name, rest) := by
  cases name with
  | nil => cases hn
  | cons c cs =>
    simp only [Atom.isName, Bool.and_eq_true, List.all_eq_true] at hn
    obtain ⟨hc, hs⟩ := hn
    obtain ⟨ht, hd⟩ := takeWhile_dropWhile_append hs hr
    simp only [List.cons_append, atom, hc, if_true, ht, hd]

theorem int_leads (i : Int) {rest : Text} (h : Stops rest) :
    (Kind.literal .int).Leads (Decimal.ofInt i ++ rest) (Decimal.ofInt i) rest := by
  have hi : int (Decimal.ofInt i ++ rest) = some (Decimal.ofInt i, rest) := by
    rw [Decimal.ofInt_eq, List.append_assoc]
    exact int_append (Decimal.digits_ofNat _) h.digit _
  -- after the digits a float goes on with a dot and a digit
  have hf : andThen (single '.') (andThen (run CodePoint.isDigit) (optional exponent)) rest =
      none := by
    refine Option.eq_none_iff_forall_ne_some.2 fun ⟨t, r⟩ hp => ?_
    obtain ⟨a, q, b, ha, hb, -⟩ := andThen_eq_some.1 hp
    obtain ⟨d, q', e, hd, -⟩ := andThen_eq_some.1 hb
    cases rest with
    | nil => cases ha
    | cons c rest =>
      obtain rfl := single_cons ha
      cases ha
      rw [run_eq_none (h.fraction _ rfl)] at hd
      cases hd
  have hb : andThen (single '#') (run CodePoint.isAlphanumeric) rest = none := by
    simp [andThen, h.base]
  refine ⟨hi, fun k hk => ?_⟩
  cases k with
  | literal l =>
    cases l with
    | float => exact andThen_of_none hi hf
    | basedInt => exact andThen_of_none hi hb
    | _ => simp [Kind.priority] at hk
  | _ => simp [Kind.priority] at hk

end Lexeme

theorem Kind.leads_of_lexeme? {k : Kind} {s t r : Text} (hf : k.family ≠ .literal .int)
    (h : k.lexeme? s = some (t, r)) : k.Leads s t r := by
  refine ⟨h, fun k' hp => Option.eq_none_iff_forall_ne_some.2 fun ⟨t', r'⟩ h' => ?_⟩
  have hk : k'.family = .literal .int := by
    cases k' with
    | literal l => cases l <;> simp [Kind.priority, Kind.family] at hp ⊢
    | _ => simp [Kind.priority] at hp
  exact hf ((family_eq h h').trans hk)

theorem Place.advance_append (p : Place) (u v : Text) :
    p.advance (u ++ v) = (p.advance u).advance v := List.foldl_append

def Cut (p : Place) (u : Text) (us : List Token) : Prop :=
  ∀ rest, Stops rest → ∀ ts, Lexed p (u ++ rest) ts ↔
    ∃ more, ts = us ++ more ∧ Lexed (p.advance u) rest more

namespace Cut

variable {p : Place} {u v : Text} {us vs : List Token}

theorem nil : Cut p [] [] := by
  intro rest _ ts
  simp [Place.advance]

theorem token {k : Kind} (h : ∀ rest, Stops rest → k.Leads (u ++ rest) u rest) :
    Cut p u [⟨k, u, p⟩] := fun rest hr _ => Lexed.iff_of_leads (h rest hr)

theorem append (hu : Cut p u us) (hv : Cut (p.advance u) v vs)
    (hs : ∀ rest, Stops rest → Stops (v ++ rest)) : Cut p (u ++ v) (us ++ vs) := by
  intro rest hr ts
  rw [List.append_assoc, hu _ (hs rest hr), Place.advance_append]
  simp only [hv rest hr]
  constructor
  · rintro ⟨_, rfl, more, rfl, hx⟩
    exact ⟨more, (List.append_assoc ..).symm, hx⟩
  · rintro ⟨more, rfl, hx⟩
    exact ⟨vs ++ more, List.append_assoc .., more, rfl, hx⟩

theorem sign {k : Kind} {ch : Char} (hk : k.lexeme? = Lexeme.single ch)
    (hf : k.family ≠ .literal .int) (hv : Cut (p.next (.ofChar ch)) v vs) :
    Cut p (.ofChar ch :: v) (⟨k, [.ofChar ch], p⟩ :: vs) := by
  have hl (s : Text) : k.Leads (.ofChar ch :: s) [.ofChar ch] s := by
    apply Kind.leads_of_lexeme? hf
    rw [hk]
    simp [Lexeme.single, CodePoint.is_iff]
  intro rest hr ts
  rw [List.cons_append, Lexed.iff_of_leads (hl _)]
  have hv := hv rest hr
  constructor
  · rintro ⟨_, rfl, hx⟩
    obtain ⟨more, rfl, hm⟩ := (hv _).1 hx
    exact ⟨more, rfl, hm⟩
  · rintro ⟨more, rfl, hx⟩
    exact ⟨vs ++ more, rfl, (hv _).2 ⟨more, rfl, hx⟩⟩

end Cut

/-- The text is cut, at every place, into tokens of a term with this value. -/
def Spelled (u : Text) (t : Term) : Prop :=
  ∀ p, ∃ us n, Cut p u us ∧ Derives .term us [n] ∧ n.value = .ok t

theorem unquote_marked {mark : CodePoint} {u s : Text} (h : Escape.decode? u = some s) (p : Place) :
    unquote p (mark :: (u ++ [mark])) = .ok s := by
  simp [unquote, Token.inner, h]

theorem spelled_atom (name : Text) : Spelled (Atom.text name) (.atom name) := by
  intro p
  unfold Atom.text
  -- a bare name is an atom token, any other one stands between apostrophes
  split
  · next hb =>
    simp only [Atom.isBare, Bool.and_eq_true] at hb
    refine ⟨_, _, .token fun rest hr => ?_, .literal (l := .atom) rfl, rfl⟩
    exact Kind.leads_of_lexeme? (by decide) (Lexeme.atom_append hb.1 hr.name)
  · refine ⟨_, _, .token fun rest _ => ?_, .literal (l := .quotedAtom) rfl, ?_⟩
    · exact Kind.leads_of_lexeme? (by decide)
        (Lexeme.quoted_append (Lexeme.passes_flatMap passes_quotePoint name) rest)
    · have hd := Escape.decode?_flatMap spells_quotePoint name
      simp [Node.value, Literal.value, unquote_marked hd, Except.map]

theorem spelled_int {i : Int} (h : i.natAbs < 10 ^ Decimal.limit) :
    Spelled (Decimal.ofInt i) (.int i) := by
  intro p
  refine ⟨_, _, .token fun rest hr => Lexeme.int_leads i hr, .literal (l := .int) rfl, ?_⟩
  simp [Node.value, Literal.value, Decimal.int?_ofInt h]

theorem spelled_str (s : Text) : Spelled (stringText s) (.str s) := by
  intro p
  have hd := Escape.decode?_flatMap spells_stringPoint s
  refine ⟨_, _, .token fun rest _ => ?_,
    @Derives.strings ⟨.string, stringText s, p⟩ [] (by simp), ?_⟩
  · exact Kind.leads_of_lexeme? (by decide)
      (Lexeme.quoted_append (Lexeme.passes_flatMap passes_stringPoint s) rest)
  · simp [Node.value, joinStrings, stringText, unquote_marked hd, Except.map]

theorem Text.join_cons_cons (sep u v : Text) (us : List Text) :
    join sep (u :: v :: us) = u ++ (sep ++ join sep (v :: us)) := by
  simp [join]

theorem spelled_terms {t : Term} {ts : List Term} (h : ∀ x ∈ t :: ts, Spelled x.text x)
    (p : Place) : ∃ us ns, Cut p (Text.join (lit ",") (Term.texts (t :: ts))) us ∧
      Derives .terms us ns ∧ Node.values ns = .ok (t :: ts) := by
  obtain ⟨us, n, hc, hd, hv⟩ := h t (by simp) p
  -- the place moves on past each term and its comma, so it is kept general
  induction ts generalizing t p us n with
  | nil =>
    refine ⟨us, [n], by simpa [Term.texts, Text.join] using hc, .one hd, ?_⟩
    simp [Node.values, hv]
  | cons t' ts ih =>
    have h' : ∀ x ∈ t' :: ts, Spelled x.text x := fun x hx => h x (List.mem_cons_of_mem t hx)
    obtain ⟨us', n', hc', hd', hv'⟩ := h' t' (by simp) ((p.advance t.text).next (.ofChar ','))
    obtain ⟨vs, ns, hcs, hds, hvs⟩ := ih h' _ us' n' hc' hd' hv'
    refine ⟨us ++ ⟨.comma, lit ",", p.advance t.text⟩ :: vs, n :: ns, ?_, .more hd rfl hds, ?_⟩
    · rw [Term.texts, Term.texts, Text.join_cons_cons]
      exact hc.append (.sign rfl (by decide) hcs) fun rest _ => stops_of_sign (.inl rfl) _
    · simp [Node.values, hv, hvs]

theorem spelled_tuple {ts : List Term} (h : ∀ x ∈ ts, Spelled x.text x) :
    Spelled (Term.tuple ts).text (.tuple ts) := by
  intro p
  cases ts with
  | nil =>
    refine ⟨_, _, .sign rfl (by decide) (.sign rfl (by decide) .nil),
      .ofTuple (.emptyTuple rfl rfl), rfl⟩
  | cons t ts =>
    obtain ⟨us, ns, hc, hd, hv⟩ := spelled_terms h (p.next (.ofChar '\x7b'))
    have hb := hc.append (.sign (k := .closeTuple) rfl (by decide) .nil)
      fun rest _ => stops_of_sign (.inr (.inl rfl)) rest
    refine ⟨_, _, .sign rfl (by decide) hb, .ofTuple (.tuple rfl hd rfl), ?_⟩
    simp [Node.value, hv]

theorem spelled_list {ts : List Term} (h : ∀ x ∈ ts, Spelled x.text x) :
    Spelled (Term.list ts).text (.list ts) := by
  intro p
  cases ts with
  | nil =>
    refine ⟨_, _, .sign rfl (by decide) (.sign rfl (by decide) .nil),
      .ofList (.emptyList rfl rfl), rfl⟩
  | cons t ts =>
    obtain ⟨us, ns, hc, hd, hv⟩ := spelled_terms h (p.next (.ofChar '['))
    have hb := hc.append (.sign (k := .closeList) rfl (by decide) .nil)
      fun rest _ => stops_of_sign (.inr (.inr rfl)) rest
    refine ⟨_, _, .sign rfl (by decide) hb, .ofList (.list rfl hd rfl), ?_⟩
    simp [Node.value, hv]

namespace Term

/-- Terms built of atoms, integers that are not too long, strings, tuples and lists. -/
inductive Plain : Term → Prop where
  | atom (name : Text) : Plain (.atom name)
  | int {i : Int} : i.natAbs < 10 ^ Decimal.limit → Plain (.int i)
  | str (s : Text) : Plain (.str s)
  | tuple {ts : List Term} : (∀ t ∈ ts, Plain t) → Plain (.tuple ts)
  | list {ts : List Term} : (∀ t ∈ ts, Plain t) → Plain (.list ts)

theorem Plain.hasOverlong_eq_false {t : Term} (h : Plain t) : t.hasOverlong = false := by
  induction h with
  | atom | str => rfl
  | int hi => exact Decimal.isOverlong_eq_false hi
  | tuple _ ih => exact anyOverlong_eq_false_iff.2 ih
  | list _ ih => exact anyOverlong_eq_false_iff.2 ih

theorem Plain.holdsNothing_eq_false {t : Term} (h : Plain t) : t.holdsNothing = false := by
  induction h with
  | atom | int | str => rfl
  | tuple _ ih => exact anyHoldsNothing_eq_false_iff.2 ih
  | list _ ih => exact anyHoldsNothing_eq_false_iff.2 ih

theorem Plain.spelled {t : Term} (h : Plain t) : Spelled t.text t := by
  induction h with
  | atom name => exact spelled_atom name
  | int hi => exact spelled_int hi
  | str s => exact spelled_str s
  | tuple _ ih => exact spelled_tuple ih
  | list _ ih => exact spelled_list ih

end Term

theorem parse_dot {u : Text} {us : List Token} {n : Node} (hc : Cut .start u us)
    (hd : Derives .term us [n]) : parse (u ++ lit ".") = .ok [n] := by
  have hdot : Lexed (Place.start.advance u) (lit ".") [⟨.dot, lit ".", Place.start.advance u⟩] :=
    .token (Kind.leads_of_lexeme? (by decide) rfl) .done
  have hx := (hc _ stops_dot _).2 ⟨_, rfl, hdot⟩
  have hs : Derives .start (us ++ [⟨.dot, lit ".", Place.start.advance u⟩]) [n] := by
    simpa using Derives.forms (.form hd rfl) .noForm
  exact parse_eq_ok_iff.2 ⟨_, hx, hs⟩

theorem readTerms_spelled {u : Text} {t : Term} (h : Spelled u t) :
    readTerms (u ++ lit ".") = .ok [t] := by
  obtain ⟨us, n, hc, hd, hv⟩ := h .start
  rw [readTerms, parse_dot hc hd]
  simp [Node.values, hv]

/-- A term is written as a text that, closed by a dot, is read as that term. -/
theorem readTerms_text (t : Term) (h : t.Plain) :
    ∃ s, t.text? = some s ∧ readTerms (s ++ lit ".") = .ok [t] := by
  have hw : t.isWritable = true :=
    Term.isWritable_iff.2 ⟨h.hasOverlong_eq_false, h.holdsNothing_eq_false⟩
  exact ⟨t.text, if_pos hw, readTerms_spelled h.spelled⟩

def Term.thorny : Term :=
  .tuple [.atom (lit "case"), .atom [], .atom (lit "it's\\^\n"), .int (-10),
    .str (lit "\"\\^\n\\x" ++ [⟨0xD800, by decide⟩]), .list [.tuple [], .list [.str []]]]

theorem readTerms_text_thorny : Term.thorny.Plain ∧
    ∃ s, Term.thorny.text? = some s ∧ readTerms (s ++ lit ".") = .ok [Term.thorny] := by
  have hten : 10 ^ 2 ≤ 10 ^ Decimal.limit := Nat.pow_le_pow_right (by decide) (by decide)
  have hint : (-10 : Int).natAbs < 10 ^ Decimal.limit := Nat.lt_of_lt_of_le (by decide) hten
  have hlist : Term.Plain (.list [.tuple [], .list [.str []]]) := by
    refine .list (List.forall_mem_cons.2 ⟨.tuple (by simp), List.forall_mem_cons.2 ⟨?_, by simp⟩⟩)
    exact .list (List.forall_mem_cons.2 ⟨.str [], by simp⟩)
  have hp : Term.thorny.Plain := by
    refine .tuple ?_
    simp only [List.forall_mem_cons]
    exact ⟨.atom _, .atom _, .atom _, .int hint, .str _, hlist, by simp⟩
  exact ⟨hp, readTerms_text Term.thorny hp⟩

end EnumForms
